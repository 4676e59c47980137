import EmbeddedTemplate.Mqtt.Session

/-! The rounds of the client against the session machine, whatever the network, the clock and the handlers do. Each
function is specified by where it leaves the machine. -/
namespace EmbeddedTemplate.Mqtt

open ByteMem Hoare

variable {ω η : Type} {E : Env ω η} {w w' : World ω η} {s s' : Session η} {rounds n : ℕ} {timer : Timer}

/-- The buffer for packets to be sent is away from the first bytes of the other one, which a CONNACK takes. -/
def Client.Apart (c : Client η) : Prop := c.buf + c.bufSize ≤ c.readbuf ∨ c.readbuf + 7 ≤ c.buf

def Client.Same (c c' : Client η) : Prop := c' = { c with
  keepAliveInterval := c'.keepAliveInterval
  pingTimer := c'.pingTimer }

structure Follows (w : World ω η) (s : Session η) : Prop where
  run : Session.Run w.log s
  connected : s.connected = w.c.isconnected
  pinged : s.pinged = w.c.pingOutstanding
  id : s.id = w.c.nextPacketid
  slots : ∃ free : List (MessageHandlers η), (∀ h ∈ free, h.topicFilter = none) ∧
    w.c.messageHandlers.slots = s.handlers.map (fun h => ⟨some h.1, h.2⟩) ++ free
  noDefault : w.c.defaultMessageHandler = none
  apart : w.c.Apart

def Unfinished (w : World ω η) : Prop := ∃ s, Session.Run w.log s

theorem Follows.unfinished (h : Follows w s) : Unfinished w := ⟨s, h.run⟩

theorem Client.Same.refl (c : Client η) : c.Same c := rfl

theorem Client.Same.trans {c c' c'' : Client η} (h : c.Same c') (h' : c'.Same c'') : c.Same c'' := by
  unfold Client.Same at *
  rw [h', h]

theorem Follows.frame (h : Follows w s) (hlog : w'.log = w.log) (hc : w.c.Same w'.c) : Follows w' s := by
  obtain ⟨hrun, hconnected, hpinged, hid, hslots, hdefault, hapart⟩ := h
  unfold Client.Same at hc
  constructor
  · rwa [hlog]
  all_goals
    rw [hc]
    assumption

/-- An event that changes none of the client's variables but the timer. -/
theorem Follows.event (h : Follows w s) {e : Event η} (hstep : Session.Step s e s')
    (hlog : w'.log = w.log ++ [e]) (hc : w.c.Same w'.c) (hconnected : s'.connected = s.connected)
    (hpinged : s'.pinged = s.pinged) (hid : s'.id = s.id) (hhandlers : s'.handlers = s.handlers) :
    Follows w' s' := by
  have hframe : Follows { w' with log := w.log } s := h.frame rfl hc
  refine ⟨?_, ?_, ?_, ?_, ?_, hframe.noDefault, hframe.apart⟩
  · rw [hlog]
    exact h.run.snoc hstep
  · rw [hconnected]
    exact hframe.connected
  · rw [hpinged]
    exact hframe.pinged
  · rw [hid]
    exact hframe.id
  · rw [hhandlers]
    exact hframe.slots

theorem sendLoop_spec {length sent : ℤ} (hw : Unfinished w) :
    wp Unfinished (sendLoop E timer length n sent) (fun _ w' => ∃ env, w' = { w with env := env }) w := by
  induction n generalizing w sent with
  | zero => exact .stop hw
  | succ n ih =>
    have hstay : ∃ env, w = { w with env := env } := ⟨w.env, rfl⟩
    unfold sendLoop
    simp only [timerIsExpired, timerLeftMs, osGetTime, client, netWrite, wp_ite, wp_bind, wp_of, wp_pure]
    refine ⟨fun _ => ⟨fun _ => ⟨_, rfl⟩, fun _ => ⟨fun _ => ⟨_, rfl⟩, fun _ => ?_⟩⟩, fun _ => hstay⟩
    exact wp_mono (ih hw) fun _ _ ⟨env, henv⟩ => ⟨env, henv⟩

theorem sendPacket_spec {length : ℤ} {packet : List UInt8} (hw : Unfinished w)
    (hpacket : read w.mem w.c.buf length.toNat = packet) :
    wp Unfinished (sendPacket E rounds length timer) (fun r w' =>
      (r = success ∨ r = failure) ∧ w.c.Same w'.c ∧ w'.mem = w.mem ∧
        w'.log = w.log ++ [.sent packet (r = success)]) w := by
  have hne : ¬ failure = success := by decide
  unfold sendPacket
  rw [wp_bind]
  apply wp_mono (sendLoop_spec hw)
  rintro sent _ ⟨env, rfl⟩
  simp only [client, memory, note, timerCountdownSecond, osGetTime, setClient, wp_ite, wp_bind, wp_of, wp_pure,
    hpacket]
  constructor
  · intro hsent
    exact ⟨.inl trivial, rfl, trivial, by simp [hsent]⟩
  · intro hsent
    exact ⟨.inr trivial, rfl, trivial, by simp [hsent, hne]⟩

/-- `k` digits add at most `128 ^ k - 1` times the multiplier. -/
theorem decodeLoop_le {σ : Type} (getchar : σ → σ × ℤ × UInt8) (k : ℕ) (t : σ) (len value multiplier : ℕ) :
    (decodeLoop getchar k t len value multiplier).2.2 + multiplier ≤ value + multiplier * 128 ^ k := by
  induction k generalizing t len value multiplier with
  | zero =>
    rw [decodeLoop]
    dsimp only
    omega
  | succ k ih =>
    have hdigit : ((getchar t).2.2 &&& 127).toNat * multiplier ≤ 127 * multiplier := by
      rw [toNat_and_127]
      exact Nat.mul_le_mul_right multiplier (by omega)
    have hpow : multiplier * 1 ≤ multiplier * 128 ^ k :=
      Nat.mul_le_mul_left multiplier (Nat.one_le_pow _ _ (by omega))
    have hsucc : multiplier * 128 ^ (k + 1) = 128 * (multiplier * 128 ^ k) := by ring
    rw [decodeLoop, hsucc]
    dsimp only
    split_ifs
    · dsimp only
      omega
    · have hrest := ih (getchar t).1 (len + 1) (value + ((getchar t).2.2 &&& 127).toNat * multiplier)
        (multiplier * 128)
      have hshift : multiplier * 128 * 128 ^ k = 128 * (multiplier * 128 ^ k) := by ring
      rw [hshift] at hrest
      omega
    · dsimp only
      omega

theorem packetDecode_lt {σ : Type} (getchar : σ → σ × ℤ × UInt8) (t : σ) :
    (packetDecode getchar t).2.2 < 128 ^ 4 := by
  have hle := decodeLoop_le getchar maxNoOfRemainingLengthBytes t 0 0 1
  unfold maxNoOfRemainingLengthBytes at hle
  unfold packetDecode maxNoOfRemainingLengthBytes
  omega

theorem holds_received (mem : Mem) (p k : ℕ) (bytes : List UInt8) :
    let len := 1 + (Base128.encode k).length
    let m := write (write mem (p + 1) (Base128.encode k)) (p + len) bytes
    Holds m p (Base128.frame (m p) (read m (p + len) k)) := by
  dsimp only
  generalize hm : write (write mem (p + 1) (Base128.encode k)) _ bytes = m
  have hlength : Holds m (p + 1) (Base128.encode k) := by
    apply (holds_write mem (p + 1) (Base128.encode k)).congr
    intro q _ hq
    rw [← hm]
    exact write_of_disjoint (.inl (by omega))
  refine ⟨rfl, ?_⟩
  rw [length_read]
  apply holds_append.mpr
  refine ⟨hlength, ?_⟩
  rw [Nat.add_assoc]
  exact holds_read m _ k

theorem timerLeftMs_spec :
    wp Unfinished (timerLeftMs E timer) (fun _ w' => ∃ env, w' = { w with env := env }) w := by
  simp only [timerLeftMs, osGetTime, wp_bind, wp_of, wp_pure]
  exact ⟨_, rfl⟩

theorem timerIsExpired_spec :
    wp Unfinished (timerIsExpired E timer) (fun _ w' => ∃ env, w' = { w with env := env }) w := by
  simp only [timerIsExpired, osGetTime, wp_bind, wp_of, wp_pure]
  exact ⟨_, rfl⟩

theorem timerCountdownMs_spec {waitMs : UInt32} :
    wp Unfinished (timerCountdownMs E waitMs) (fun _ w' => ∃ env, w' = { w with env := env }) w := by
  simp only [timerCountdownMs, osGetTime, wp_bind, wp_of, wp_pure]
  exact ⟨_, rfl⟩

theorem netRead_spec {p size timeout : ℕ} :
    wp Unfinished (netRead E p size timeout) (fun _ w' => ∃ env bytes, bytes.length ≤ size ∧
      w' = { w with env := env, mem := write w.mem p bytes }) w :=
  .of ⟨_, _, E.stored_le w.env size timeout, rfl⟩

theorem decodePacket_spec {timeout : ℕ} :
    wp Unfinished (decodePacket E timeout)
      (fun k w' => k < 128 ^ 4 ∧ ∃ env, w' = { w with env := env }) w :=
  .of ⟨packetDecode_lt _ _, _, rfl⟩

theorem readRest_spec {p k : ℕ} :
    wp Unfinished (readRest E p k timer)
      (fun _ w' => ∃ env bytes, w' = { w with env := env, mem := write w.mem p bytes }) w := by
  unfold readRest
  rw [wp_ite, wp_bind]
  constructor
  · intro _
    apply wp_mono timerLeftMs_spec
    rintro left _ ⟨env, rfl⟩
    apply wp_mono netRead_spec
    rintro rc _ ⟨env', bytes, -, rfl⟩
    exact ⟨env', bytes, rfl⟩
  · intro _
    exact .pure ⟨w.env, [], rfl⟩

/-- Nothing is received, or a packet is, that lies in the buffer from its start on. -/
theorem readPacket_spec :
    wp Unfinished (readPacket E timer) (fun r w' => w'.c = w.c ∧
      (r = failure ∧ w'.log = w.log ∨ ∃ header body, r = MQTTHeader.type header ∧
        w'.log = w.log ++ [.received header body] ∧ body.length < 128 ^ 4 ∧
          Holds w'.mem w.c.readbuf (Base128.frame header body))) w := by
  unfold readPacket
  simp only [client, wp_bind, wp_of]
  apply wp_mono timerLeftMs_spec
  rintro left _ ⟨env, rfl⟩
  apply wp_mono netRead_spec
  rintro rc _ ⟨env, bytes, -, rfl⟩
  rw [wp_ite]
  refine ⟨fun _ => .pure ⟨rfl, .inl ⟨rfl, rfl⟩⟩, fun _ => ?_⟩
  simp only [wp_bind]
  apply wp_mono timerLeftMs_spec
  rintro left _ ⟨env, rfl⟩
  apply wp_mono decodePacket_spec
  rintro k _ ⟨hk, env, rfl⟩
  simp only [memory, setMemory, note, wp_of, packetEncode, encodeLoop_eq, Nat.add_zero, Nat.zero_add]
  apply wp_mono readRest_spec
  rintro rc _ ⟨env, rest, rfl⟩
  simp only [wp_ite, wp_bind, wp_of, wp_pure]
  refine ⟨fun _ => ⟨trivial, .inl ⟨trivial, trivial⟩⟩, fun _ => ⟨trivial, .inr ⟨_, _, rfl, rfl, ?_, ?_⟩⟩⟩
  · rwa [length_read]
  · exact holds_received _ _ _ _

def deliveries (m : Mem) (d : PublishData) (hs : List (MessageHandlers η)) : List (Event η) :=
  hs.filterMap fun h => if h.takes m d.topicName then h.fp.map fun fp =>
    .delivered fp (d.topicName.chars m) (read m d.payload d.payloadlen.toNat) else none

theorem callHandler_spec (hE : E.Quiet) {fp : η} {d : PublishData} :
    wp Unfinished (callHandler E fp d) (fun d' w' => d' = d ∧ ∃ env, w' = { w with
      env := env
      log := w.log ++ [.delivered fp (d.topicName.chars w.mem) (read w.mem d.payload d.payloadlen.toNat)] }) w := by
  unfold callHandler
  simp only [memory, note, wp_bind, wp_of]
  obtain ⟨env, hcall⟩ := hE.handle fp d { w with
    log := w.log ++ [.delivered fp (d.topicName.chars w.mem) (read w.mem d.payload d.payloadlen.toNat)] }
  exact .returned hcall ⟨rfl, env, rfl⟩

theorem deliverLoop_spec (hE : E.Quiet) {d : PublishData} {is : List (Fin maxMessageHandlers)} {rc : ℤ} :
    wp Unfinished (deliverLoop E is d rc) (fun r w' => r.2 = d ∧ ∃ env, w' = { w with
      env := env
      log := w.log ++ deliveries w.mem d (is.map w.c.messageHandlers.get) }) w := by
  induction is generalizing w rc with
  | nil =>
    unfold deliverLoop
    exact .pure ⟨rfl, w.env, by simp [deliveries]⟩
  | cons i is ih =>
    have hskip : ∀ rc, deliveries w.mem d ((i :: is).map w.c.messageHandlers.get) =
        deliveries w.mem d (is.map w.c.messageHandlers.get) →
        wp Unfinished (deliverLoop E is d rc) (fun r w' => r.2 = d ∧ ∃ env, w' = { w with
          env := env
          log := w.log ++ deliveries w.mem d ((i :: is).map w.c.messageHandlers.get) }) w := by
      intro rc he
      rw [he]
      exact ih
    unfold deliverLoop
    simp only [client, memory, wp_bind, wp_of, wp_ite]
    constructor
    · intro htakes
      cases hfp : (w.c.messageHandlers.get i).fp with
      | none => exact hskip rc (by simp [deliveries, htakes, hfp])
      | some fp =>
        have he : deliveries w.mem d ((i :: is).map w.c.messageHandlers.get) =
            .delivered fp (d.topicName.chars w.mem) (read w.mem d.payload d.payloadlen.toNat) ::
              deliveries w.mem d (is.map w.c.messageHandlers.get) := by
          simp [deliveries, htakes, hfp]
        rw [he]
        simp only [wp_bind]
        apply wp_mono (callHandler_spec hE)
        rintro _ _ ⟨rfl, env, rfl⟩
        apply wp_mono ih
        rintro r _ ⟨hr, env', rfl⟩
        exact ⟨hr, env', by simp⟩
    · intro htakes
      exact hskip rc (by simp [deliveries, htakes])

theorem HandlerTable.map_get (t : HandlerTable η) : (List.finRange maxMessageHandlers).map t.get = t.slots := by
  apply List.ext_getElem
  · rw [List.length_map, List.length_finRange, t.length_slots]
  · intro i _ _
    simp [HandlerTable.get]

/-- Without a default handler, the handlers that take the topic are called in their order. -/
theorem deliverMessage_spec (hE : E.Quiet) {d : PublishData} (h : w.c.defaultMessageHandler = none) :
    wp Unfinished (deliverMessage E d) (fun r w' => r.2 = d ∧ ∃ env, w' = { w with
      env := env
      log := w.log ++ deliveries w.mem d w.c.messageHandlers.slots }) w := by
  unfold deliverMessage
  rw [wp_bind]
  apply wp_mono (deliverLoop_spec hE)
  rintro r _ ⟨hr, env, rfl⟩
  rw [HandlerTable.map_get]
  simp only [client, wp_bind, wp_of, wp_ite, h, wp_pure]
  exact ⟨fun _ => ⟨hr, env, rfl⟩, fun _ => ⟨hr, env, rfl⟩⟩

theorem chars_of_cstring_none {t : MQTTString} (h : t.cstring = none) (hlen : 0 ≤ t.lenstring.len) (m : Mem) :
    t.chars m = read m t.lenstring.data t.lenstring.len.toNat := by
  unfold MQTTString.chars
  split_ifs with hpos
  · rfl
  · have hzero : t.lenstring.len.toNat = 0 := by omega
    rw [h, hzero]
    rfl

theorem takes_of_takes {m : Mem} {t : MQTTString} {filter : List UInt8} {fp : Option η}
    (h : t.cstring = none) (htakes : (⟨some filter, fp⟩ : MessageHandlers η).takes m t = true) :
    Takes filter (t.chars m) := by
  simp only [MessageHandlers.takes, packetEquals, h, Bool.or_eq_true, Bool.and_eq_true, beq_iff_eq,
    decide_eq_true_eq] at htakes
  rcases htakes with ⟨hlen, hread⟩ | ⟨hlen, hmatch⟩
  · left
    rw [chars_of_cstring_none h (by omega), hread]
  · right
    rwa [chars_of_cstring_none h hlen]

theorem takes_iff {m : Mem} {t : MQTTString} {filter : List UInt8} {fp : Option η} (h : t.cstring = none)
    (hlen : 0 ≤ t.lenstring.len) :
    (⟨some filter, fp⟩ : MessageHandlers η).takes m t = true ↔ Takes filter (t.chars m) := by
  constructor
  · exact takes_of_takes h
  · intro htakes
    have hchars := chars_of_cstring_none h hlen m
    simp only [MessageHandlers.takes, packetEquals, h, Bool.or_eq_true, Bool.and_eq_true, beq_iff_eq,
      decide_eq_true_eq]
    rw [← hchars]
    rcases htakes with heq | hmatch
    · left
      have hlength : filter.length = t.lenstring.len.toNat := by
        rw [← heq, hchars, length_read]
      exact ⟨by omega, heq⟩
    · exact .inr ⟨hlen, hmatch⟩

theorem deliveries_eq_due {m : Mem} {d : PublishData} {topic content : List UInt8}
    {handlers : List (List UInt8 × Option η)} {free : List (MessageHandlers η)} (h : d.topicName.cstring = none)
    (hlen : 0 ≤ d.topicName.lenstring.len) (hchars : d.topicName.chars m = topic)
    (hpayload : read m d.payload d.payloadlen.toNat = content)
    (hfree : ∀ g ∈ free, g.topicFilter = none) :
    deliveries m d (handlers.map (fun g => ⟨some g.1, g.2⟩) ++ free) = due handlers topic content := by
  have hnone : ∀ g ∈ free, (if g.takes m d.topicName then g.fp.map fun fp =>
      Event.delivered fp (d.topicName.chars m) (read m d.payload d.payloadlen.toNat) else none) = none := by
    intro g hg
    rw [MessageHandlers.takes, hfree g hg]
    rfl
  unfold deliveries due
  rw [List.filterMap_append, List.filterMap_eq_nil_iff.mpr hnone, List.append_nil, List.filterMap_map]
  apply List.filterMap_congr
  rintro ⟨filter, fp⟩ -
  dsimp only [Function.comp_apply]
  rw [hchars, hpayload]
  exact if_congr (by rw [takes_iff h hlen, hchars]) rfl rfl

theorem deserializePublish_fields {m : Mem} {p : ℕ} (htype : MQTTHeader.type (m p) = publish) (d : PublishData) :
    let r := deserializePublish m d p
    r.2.topicName.cstring = none ∧ r.2.qos = MQTTHeader.qos (m p) := by
  have hnone : ∀ (s : MQTTString) (ptr enddata : ℕ), (readMQTTLenString m s ptr enddata).2.1.cstring = none := by
    intro s ptr enddata
    unfold readMQTTLenString
    dsimp only
    split_ifs
    all_goals rfl
  unfold deserializePublish
  simp only [readChar, htype, ne_eq, not_true_eq_false, if_false]
  apply iteInduction (motive := fun r : ℤ × PublishData =>
    r.2.topicName.cstring = none ∧ r.2.qos = MQTTHeader.qos (m p))
  · exact fun _ => ⟨hnone _ _ _, rfl⟩
  · intro _
    apply iteInduction (motive := fun d : PublishData =>
      d.topicName.cstring = none ∧ d.qos = MQTTHeader.qos (m p))
    · exact fun _ => ⟨hnone _ _ _, rfl⟩
    · exact fun _ => ⟨hnone _ _ _, rfl⟩

theorem ofBits_fields : ∀ header : UInt8,
    MQTTHeader.ofBits (MQTTHeader.type header) (UInt8.ofNat (MQTTHeader.dup header)) (MQTTHeader.qos header)
      (UInt8.ofNat (MQTTHeader.retain header)) = header := by decide +kernel

section Received
variable {m : Mem} {p : ℕ} {header : UInt8} {body : List UInt8}

theorem deserializePublish_of_published {id : UInt16} {topic content : List UInt8}
    (hholds : Holds m p (Base128.frame header body)) (hlen : body.length < 128 ^ 4)
    (h : Published header body id topic content) (d : PublishData) :
    let r := deserializePublish m d p
    r.1 = 1 ∧ r.2.qos = MQTTHeader.qos header ∧ (0 < MQTTHeader.qos header → r.2.packetid = id) ∧
      r.2.topicName.chars m = topic ∧ 0 ≤ r.2.topicName.lenstring.len ∧
      read m r.2.payload (r.2.payloadlen % 2 ^ 32).toNat = content := by
  obtain ⟨htype, htopic, rfl⟩ := h
  have hbody := length_publishBody (MQTTHeader.qos header) id topic content
  have hqos : MQTTHeader.qos header < 4 := Nat.mod_lt _ (by omega)
  have hform := ofBits_fields header
  rw [htype] at hform
  have hframe := congrArg (Base128.frame · (publishBody (MQTTHeader.qos header) id topic content)) hform.symm
  rw [hframe] at hholds
  obtain ⟨hone, -, hq, -, hid, hchars, hpayloadlen, hpayload, hnonneg⟩ :=
    deserializePublish_of_holds hlen htopic ⟨by omega, by omega⟩ hholds d
  have hcontent : content.length < 2 ^ 32 := by
    split_ifs at hbody
    all_goals omega
  have hsize : ((content.length : ℤ) % 2 ^ 32).toNat = content.length := by omega
  refine ⟨hone, by exact_mod_cast hq, fun hpos => hid (by exact_mod_cast hpos), hchars, hnonneg, ?_⟩
  rw [hpayloadlen, hsize, hpayload]

theorem deserializeAck_packetid {id : UInt16} {rest : List UInt8}
    (hholds : Holds m p (Base128.frame header (int16 id.toNat ++ rest)))
    (hlen : (int16 id.toNat ++ rest).length < 128 ^ 4) (d : AckData) :
    (deserializeAck m d p).2.packetid = id := by
  obtain ⟨hheader, hlength, hbody⟩ := holds_frame hholds
  have htwo : 2 ≤ (int16 id.toNat ++ rest).length := by
    rw [List.length_append]
    exact Nat.le_add_right 2 _
  have hid := readInt_of_holds id.toNat_lt (holds_append.mp hbody).1
  unfold deserializeAck
  simp only [readChar, packetDecodeBuf_of_holds hlen hlength, hid, UInt16.ofNat_toNat]
  rw [if_neg (by omega)]

end Received

structure Later (s s' : Session η) : Prop where
  connected : s'.connected = s.connected
  id : s'.id = s.id
  pending : s'.pending = s.pending
  handlers : s'.handlers = s.handlers

theorem Later.refl (s : Session η) : Later s s := ⟨rfl, rfl, rfl, rfl⟩

theorem Later.trans {s'' : Session η} (h : Later s s') (h' : Later s' s'') : Later s s'' :=
  ⟨h'.connected.trans h.connected, h'.id.trans h.id, h'.pending.trans h.pending,
    h'.handlers.trans h.handlers⟩

theorem Later.free (h : Later s s') (hphase : s'.phase = s.phase) (hfree : s.Free) : s'.Free :=
  hfree.congr hphase h.handlers

/-- The message of `cycle` after `MQTTDeserialize_publish`, where a `size_t` is as wide as an `int`. -/
def received (m : Mem) (d : PublishData) (readbuf : ℕ) : PublishData :=
  { (deserializePublish m d readbuf).2 with
    payloadlen := (deserializePublish m d readbuf).2.payloadlen % 2 ^ 32 + 2 ^ 32 * (0 : ℕ) }

/-- The calls of handlers are steps of the machine, and with the last of them the message has been served. -/
theorem Follows.deliver {header : UInt8} {body : List UInt8} (h : Follows w s)
    (hphase : s.phase = .handling header body []) (htype : MQTTHeader.type header = publish)
    (hholds : Holds w.mem w.c.readbuf (Base128.frame header body)) (hlen : body.length < 128 ^ 4)
    (d : PublishData) (hlog : w'.log = w.log ++ deliveries w.mem (received w.mem d w.c.readbuf)
      w.c.messageHandlers.slots) (hc : w'.c = w.c) :
    ∃ s' calls, Follows w' s' ∧ Later s s' ∧ s'.phase = .handling header body calls ∧ s'.Served := by
  have hheader : w.mem w.c.readbuf = header := hholds.1
  have hcstring : (received w.mem d w.c.readbuf).topicName.cstring = none :=
    (deserializePublish_fields (hheader ▸ htype) d).1
  obtain ⟨free, hfree, hslots⟩ := h.slots
  generalize hds : deliveries w.mem (received w.mem d w.c.readbuf) w.c.messageHandlers.slots = ds at hlog
  have hcalls : ∀ e ∈ ds, ∃ fp topic payload topicFilter, e = .delivered fp topic payload ∧
      (topicFilter, some fp) ∈ s.handlers ∧ Takes topicFilter topic := by
    intro e he
    rw [← hds] at he
    obtain ⟨g, hg, he⟩ := List.mem_filterMap.mp he
    split_ifs at he with htakes
    obtain ⟨fp, hfp, rfl⟩ := Option.map_eq_some_iff.mp he
    rw [hslots, List.mem_append] at hg
    rcases hg with hg | hg
    · obtain ⟨⟨filter, f⟩, hmem, rfl⟩ := List.mem_map.mp hg
      obtain rfl : f = some fp := hfp
      exact ⟨fp, _, _, filter, rfl, hmem, takes_of_takes hcstring htakes⟩
    · simp [MessageHandlers.takes, hfree g hg] at htakes
  have hdue : ∀ id topic content, Published header body id topic content → ds = due s.handlers topic content := by
    intro id topic content hpublished
    obtain ⟨-, -, -, htopic, hnonneg, hpayload⟩ := deserializePublish_of_published hholds hlen hpublished d
    rw [← hds, hslots]
    refine deliveries_eq_due hcstring hnonneg htopic ?_ hfree
    rw [← hpayload]
    simp [received]
  have hrun : Session.Run w.log { s with phase := .handling header body [] } := by
    rw [← hphase]
    exact h.run
  have hend := Session.deliver hrun htype hcalls fun id topic content hpublished => by
    rw [List.nil_append, hdue id topic content hpublished]
  have hframe : Follows { w' with log := w.log } s := h.frame rfl (by rw [hc]; rfl)
  refine ⟨{ s with phase := .handling header body ds }, ds,
    ⟨?_, hframe.connected, hframe.pinged, hframe.id, hframe.slots, hframe.noDefault, hframe.apart⟩,
    ⟨rfl, rfl, rfl, rfl⟩, rfl, ?_⟩
  · rw [hlog]
    exact hend
  · rintro _ _ _ ⟨⟩
    exact hdue

def Kept (w w' : World ω η) : Prop :=
  w'.c.readbuf = w.c.readbuf ∧ ∀ x, w.c.readbuf ≤ x → x < w.c.readbuf + 7 → w'.mem x = w.mem x

theorem serializeZero_eq (m : Mem) (buf : ℕ) (buflen : ℤ) (packettype : ℕ) :
    serializeZero m buf buflen packettype = if buflen < 2 then (m, bufferTooShort)
      else (write m buf [MQTTHeader.ofBits packettype 0 0 0, 0], 2) := by
  have hhead := writeHeader_eq (m, buf) (MQTTHeader.ofBits packettype 0 0 0) 0
  have hencode : Base128.encode 0 = [0] := Base128.encode_of_lt (by omega)
  rw [Nat.cast_zero, hencode] at hhead
  unfold serializeZero
  rw [hhead, written_emit]
  rfl

theorem keepalive_spec (h : Follows w s) (hfree : s.Free) :
    wp Unfinished (keepalive E rounds) (fun _ w' => ∃ s', Follows w' s' ∧ Later s s' ∧ s'.phase = s.phase ∧
      Kept w w') w := by
  have hstay : ∀ env mem, (∀ x, w.c.readbuf ≤ x → x < w.c.readbuf + 7 → mem x = w.mem x) →
      ∃ s', Follows ({ w with env := env, mem := mem } : World ω η) s' ∧ Later s s' ∧ s'.phase = s.phase ∧
        Kept w ({ w with env := env, mem := mem } : World ω η) :=
    fun _ _ hmem => ⟨s, h.frame rfl rfl, Later.refl s, rfl, rfl, hmem⟩
  unfold keepalive
  simp only [client, wp_bind, wp_of, wp_ite, wp_pure]
  refine ⟨fun _ => hstay w.env w.mem fun _ _ _ => rfl, fun _ => ?_⟩
  apply wp_mono timerIsExpired_spec
  rintro expired _ ⟨env, rfl⟩
  rw [wp_ite]
  refine ⟨fun _ => ?_, fun _ => .pure (hstay env w.mem fun _ _ _ => rfl)⟩
  rw [wp_ite]
  refine ⟨fun _ => .pure (hstay env w.mem fun _ _ _ => rfl), fun hping => ?_⟩
  simp only [timerCountdownMs, osGetTime, memory, setMemory, serializePingreq, wp_bind, wp_of, wp_pure]
  generalize (E.time env).1 = env
  have hpingreq := serializeZero_eq w.mem w.c.buf w.c.bufSize pingreq
  have hmem : ∀ x, w.c.readbuf ≤ x → x < w.c.readbuf + 7 →
      (serializeZero w.mem w.c.buf w.c.bufSize pingreq).1 x = w.mem x := by
    intro x hlo hhi
    have hapart := h.apart
    unfold Client.Apart at hapart
    rw [hpingreq]
    split_ifs
    · rfl
    · apply write_of_disjoint
      simp only [List.length_cons, List.length_nil]
      omega
  refine wp_ite.mpr ⟨fun hpos => ?_, fun _ => .pure (hstay _ _ hmem)⟩
  rw [hpingreq] at hpos hmem ⊢
  split_ifs at hpos hmem ⊢ with hsize
  · have hneg : ¬ (0 : ℤ) < bufferTooShort := by decide
    exact absurd hpos hneg
  · rw [wp_bind]
    refine wp_mono (sendPacket_spec h.unfinished (read_write w.mem w.c.buf _)) ?_
    rintro r w' ⟨hr, hsame, hmem', hlog⟩
    have hstep := Session.Step.ping (s := s) (decide (r = success)) hfree
      (by rw [h.pinged]; exact Bool.eq_false_iff.mpr hping)
    have hrun : Session.Run w'.log { s with pinged := decide (r = success) } := by
      rw [hlog]
      exact h.run.snoc hstep
    have hkept : Kept w w' := by
      refine ⟨by rw [hsame], fun x hlo hhi => ?_⟩
      rw [hmem']
      exact hmem x hlo hhi
    have hframe : Follows { w' with log := w.log } s := h.frame rfl hsame
    simp only [setClient, wp_bind, wp_of, wp_ite, wp_pure]
    constructor
    · intro hok
      subst hok
      exact ⟨_, ⟨hrun, hframe.connected, rfl, hframe.id, hframe.slots, hframe.noDefault, hframe.apart⟩,
        ⟨rfl, rfl, rfl, rfl⟩, rfl, hkept⟩
    · intro hfail
      have hpinged : w'.c.pingOutstanding = decide (r = success) := by
        rw [← hframe.pinged, h.pinged, decide_eq_false hfail]
        exact Bool.eq_false_iff.mpr hping
      exact ⟨_, ⟨hrun, hframe.connected, hpinged.symm, hframe.id, hframe.slots, hframe.noDefault,
        hframe.apart⟩, ⟨rfl, rfl, rfl, rfl⟩, rfl, hkept⟩

theorem cycleEnd_spec {k : ℕ} (h : Follows w s) (hfree : s.Free) :
    wp Unfinished (cycleEnd E rounds k) (fun r w' => r = k ∧ ∃ s', Follows w' s' ∧ Later s s' ∧
      s'.phase = s.phase ∧ Kept w w') w := by
  unfold cycleEnd
  rw [wp_bind]
  apply wp_mono (keepalive_spec h hfree)
  intro _ w' hw'
  exact .pure ⟨rfl, hw'⟩

/-- A packet that asks for an answer has been left without one. -/
theorem cycleFail_spec (h : Follows w s) (hphase : s.phase ≠ .idle) (hserved : s.Served) :
    wp Unfinished cycleFail (fun r w' => r = failure ∧ ∃ s', Follows w' s' ∧ Later s s' ∧ s'.Free) w := by
  unfold cycleFail
  simp only [note, wp_bind, wp_of, wp_pure]
  exact ⟨trivial, _, h.event (.failed hphase hserved) rfl rfl rfl rfl rfl rfl, ⟨rfl, rfl, rfl, rfl⟩,
    Session.free_of_idle rfl⟩

theorem sendAck_spec {header : UInt8} {body : List UInt8} {calls : List (Event η)} {packettype : ℕ} {id : UInt16}
    (h : Follows w s) (hphase : s.phase = .handling header body calls) (hserved : s.Served)
    (hreply : reply header = some packettype) (hid : ∀ id', Identified header body id' → id = id') :
    wp Unfinished (sendAck E rounds packettype id timer) (fun r w' => (r = success ∨ r = failure) ∧
      ∃ s', Follows w' s' ∧ Later s s' ∧ (r = success → s'.phase = .idle) ∧
        (r ≠ success → s'.phase ≠ .idle ∧ s'.Served)) w := by
  have hne : ¬ failure = success := by decide
  have hbusy : s.phase ≠ .idle := by
    rw [hphase]
    rintro ⟨⟩
  have hack := serializeAck_eq w.mem w.c.buf w.c.bufSize packettype 0 id
  unfold sendAck
  simp only [client, memory, setMemory, wp_bind, wp_of]
  refine wp_ite.mpr ⟨fun hnone => ?_, fun hsome => ?_⟩
  · exact .pure ⟨.inr rfl, s, h.frame rfl rfl, Later.refl s, fun hok => absurd hok hne, fun _ => ⟨hbusy, hserved⟩⟩
  · rw [hack] at hsome ⊢
    split_ifs at hsome ⊢
    · have hneg : bufferTooShort ≤ 0 := by decide
      exact absurd hneg hsome
    · have hpacket := read_write w.mem w.c.buf (ackPacket packettype 0 id)
      rw [length_ackPacket] at hpacket
      refine wp_mono (sendPacket_spec h.unfinished hpacket) ?_
      rintro r w' ⟨hr, hsame, -, hlog⟩
      have hstep := Session.Step.answered id (decide (r = success)) hphase hserved hreply hid
      refine ⟨hr, _, h.event hstep hlog hsame rfl rfl rfl rfl, ⟨rfl, rfl, rfl, rfl⟩, fun hok => ?_, fun hfail => ?_⟩
      · exact if_pos (decide_eq_true hok)
      · rw [decide_eq_false hfail]
        refine ⟨?_, ?_⟩
        · rintro ⟨⟩
        · rintro _ _ _ ⟨⟩

theorem reply_publish {header : UInt8} (h : MQTTHeader.type header = publish) :
    reply header = if MQTTHeader.qos header = 1 then some puback
      else if MQTTHeader.qos header = 2 then some pubrec else none := if_pos h

theorem replyPublish_spec {header : UInt8} {body : List UInt8} {calls : List (Event η)} {d : PublishData}
    (h : Follows w s) (hphase : s.phase = .handling header body calls) (hserved : s.Served)
    (htype : MQTTHeader.type header = publish) (hqos : d.qos = MQTTHeader.qos header)
    (hid : ∀ id', Identified header body id' → d.packetid = id') :
    wp Unfinished (replyPublish E rounds d timer) (fun r w' => (r = success ∨ r = failure) ∧
      ∃ s', Follows w' s' ∧ Later s s' ∧ (r = success → s'.phase = .idle) ∧
        (r ≠ success → s'.phase ≠ .idle ∧ s'.Served)) w := by
  have hreply := reply_publish htype
  have hne : ¬ failure = success := by decide
  have hbusy : s.phase ≠ .idle := by
    rw [hphase]
    rintro ⟨⟩
  unfold replyPublish
  rw [hqos, wp_ite]
  constructor
  · intro hone
    rw [if_pos hone] at hreply
    exact sendAck_spec h hphase hserved hreply hid
  · intro hone
    rw [if_neg hone] at hreply
    rw [wp_ite]
    constructor
    · intro htwo
      rw [if_pos htwo] at hreply
      exact sendAck_spec h hphase hserved hreply hid
    · intro _
      exact .pure ⟨.inr rfl, s, h, Later.refl s, fun hok => absurd hok hne, fun _ => ⟨hbusy, hserved⟩⟩

theorem cyclePublish_spec (hE : E.Quiet) {header : UInt8} {body : List UInt8} (h : Follows w s)
    (hphase : s.phase = .handling header body []) (htype : MQTTHeader.type header = publish)
    (hholds : Holds w.mem w.c.readbuf (Base128.frame header body)) (hlen : body.length < 128 ^ 4) :
    wp Unfinished (cyclePublish E rounds timer) (fun r w' => (r = publish ∨ r = failure) ∧
      ∃ s', Follows w' s' ∧ Later s s' ∧ s'.Free) w := by
  have hpubrec : ¬ MQTTHeader.type header = pubrec := by
    rw [htype]
    decide
  unfold cyclePublish
  simp only [client, memory, environment, wp_bind, wp_of]
  refine wp_ite.mpr ⟨fun hnot => ?_, fun hok => ?_⟩
  · have hmalformed : ∀ id topic content, ¬ Published header body id topic content :=
      fun id topic content hpublished => hnot (deserializePublish_of_published hholds hlen hpublished _).1
    refine .pure ⟨.inl rfl, s, h, Later.refl s, ?_, ?_⟩
    · intro header' body' calls' hphase' id topic content hpublished
      rw [hphase] at hphase'
      cases hphase'
      exact absurd hpublished (hmalformed id topic content)
    · rw [hphase]
      right
      rintro id (⟨topic, content, hpublished⟩ | ⟨hrec, -⟩)
      · exact hmalformed id topic content hpublished
      · exact hpubrec hrec
  · rw [not_not] at hok
    have hheader : w.mem w.c.readbuf = header := hholds.1
    have hqos := (deserializePublish_fields (hheader ▸ htype) (E.publishData w.env)).2
    rw [hheader] at hqos
    rw [wp_bind, hE.upper]
    change wp Unfinished (deliverMessage E (received w.mem (E.publishData w.env) w.c.readbuf)) _ w
    apply wp_mono (deliverMessage_spec hE h.noDefault)
    rintro ⟨-, d⟩ _ ⟨rfl, env, rfl⟩
    obtain ⟨s₀, calls, hdeliver, hlater₀, hphase₀, hserved⟩ : ∃ s₀ calls, Follows ({ w with
        env := env
        log := w.log ++ deliveries w.mem (received w.mem (E.publishData w.env) w.c.readbuf)
          w.c.messageHandlers.slots } :
        World ω η) s₀ ∧ Later s s₀ ∧ s₀.phase = .handling header body calls ∧ s₀.Served :=
      h.deliver hphase htype hholds hlen (E.publishData w.env) rfl rfl
    refine wp_ite.mpr ⟨fun hzero => ?_, fun hzero => ?_⟩
    · replace hzero : MQTTHeader.qos header = 0 := hqos ▸ hzero
      have hfree : s₀.Free := by
        refine ⟨hserved, ?_⟩
        rw [hphase₀]
        left
        rw [reply_publish htype, hzero]
        rfl
      apply wp_mono (cycleEnd_spec hdeliver hfree)
      rintro r w' ⟨hr, s', hs', hlater, hphase', -⟩
      exact ⟨.inl hr, s', hs', hlater₀.trans hlater, hlater.free hphase' hfree⟩
    · have hid : ∀ id', Identified header body id' →
          (received w.mem (E.publishData w.env) w.c.readbuf).packetid = id' := by
        rintro id' (⟨topic, content, hpublished⟩ | ⟨hrec, -⟩)
        · apply (deserializePublish_of_published hholds hlen hpublished _).2.2.1
          have hpos : ¬ MQTTHeader.qos header = 0 := hqos ▸ hzero
          omega
        · exact absurd hrec hpubrec
      rw [wp_bind]
      apply wp_mono (replyPublish_spec hdeliver hphase₀ hserved htype hqos hid)
      rintro rc w₁ ⟨hrc, s₁, hs₁, hlater, hidle, hbusy⟩
      refine wp_ite.mpr ⟨fun hfail => ?_, fun hfail => ?_⟩
      · obtain ⟨hphase₁, hserved₁⟩ := hbusy (hfail ▸ by decide)
        apply wp_mono (cycleFail_spec hs₁ hphase₁ hserved₁)
        rintro r w' ⟨hr, s', hs', hlater', hfree'⟩
        exact ⟨.inr hr, s', hs', hlater₀.trans (hlater.trans hlater'), hfree'⟩
      · have hfree₁ := Session.free_of_idle (hidle (hrc.resolve_right hfail))
        apply wp_mono (cycleEnd_spec hs₁ hfree₁)
        rintro r w' ⟨hr, s', hs', hlater', hphase', -⟩
        exact ⟨.inl hr, s', hs', hlater₀.trans (hlater.trans hlater'), hlater'.free hphase' hfree₁⟩

theorem cyclePubrec_spec {header : UInt8} {body : List UInt8} (h : Follows w s)
    (hphase : s.phase = .handling header body []) (htype : MQTTHeader.type header = pubrec)
    (hholds : Holds w.mem w.c.readbuf (Base128.frame header body)) (hlen : body.length < 128 ^ 4) :
    wp Unfinished (cyclePubrec E rounds timer) (fun r w' => (r = pubrec ∨ r = failure) ∧
      ∃ s', Follows w' s' ∧ Later s s' ∧ s'.Free) w := by
  have hpublish : ¬ MQTTHeader.type header = publish := by
    rw [htype]
    decide
  have hserved := Session.served_of_type hphase hpublish
  have hreply : reply header = some pubrel := by
    unfold reply
    rw [if_neg hpublish, if_pos htype]
  have hid : ∀ id', Identified header body id' →
      (deserializeAck w.mem (E.ackData w.env) w.c.readbuf).2.packetid = id' := by
    rintro id' (⟨topic, content, hpublished⟩ | ⟨-, rest, rfl⟩)
    · exact absurd hpublished.1 hpublish
    · exact deserializeAck_packetid hholds hlen _
  unfold cyclePubrec
  simp only [client, memory, environment, wp_bind, wp_of]
  refine wp_ite.mpr ⟨fun _ => ?_, fun _ => ?_⟩
  · have hbusy : s.phase ≠ .idle := by
      rw [hphase]
      rintro ⟨⟩
    apply wp_mono (cycleFail_spec h hbusy hserved)
    rintro r w' ⟨hr, hs'⟩
    exact ⟨.inr hr, hs'⟩
  · rw [wp_bind]
    apply wp_mono (sendAck_spec h hphase hserved hreply hid)
    rintro rc w₁ ⟨hrc, s₁, hs₁, hlater, hidle, hbusy⟩
    refine wp_ite.mpr ⟨fun hfail => ?_, fun hok => ?_⟩
    · obtain ⟨hphase₁, hserved₁⟩ := hbusy hfail
      apply wp_mono (cycleFail_spec hs₁ hphase₁ hserved₁)
      rintro r w' ⟨hr, s', hs', hlater', hfree'⟩
      exact ⟨.inr hr, s', hs', hlater.trans hlater', hfree'⟩
    · have hfree₁ := Session.free_of_idle (hidle (not_not.mp hok))
      apply wp_mono (cycleEnd_spec hs₁ hfree₁)
      rintro r w' ⟨hr, s', hs', hlater', hphase', -⟩
      exact ⟨.inl hr, s', hs', hlater.trans hlater', hlater'.free hphase' hfree₁⟩

/-- A packet is received when no answer is due. A PINGRESP ends the wait for it in the machine and in the client. -/
theorem Follows.receive {header : UInt8} {body : List UInt8} (h : Follows w s) (hfree : s.Free)
    (hlog : w'.log = w.log ++ [.received header body])
    (hc : w'.c = { w.c with
      pingOutstanding := w.c.pingOutstanding && MQTTHeader.type header != pingresp }) :
    Follows w' { s with
      phase := .handling header body []
      pinged := s.pinged && MQTTHeader.type header != pingresp } := by
  have hstep := Session.Step.received (s := s) header body hfree
  constructor
  · rw [hlog]
    exact h.run.snoc hstep
  · rw [hc]
    exact h.connected
  · rw [hc, h.pinged]
  · rw [hc]
    exact h.id
  · rw [hc]
    exact h.slots
  · rw [hc]
    exact h.noDefault
  · rw [hc]
    exact h.apart

/-- The packet of type `k` that was received last, as the first bytes of the buffer have it. -/
def Holding (w : World ω η) (s : Session η) (k : ℕ) : Prop :=
  ∃ header body calls m, s.phase = .handling header body calls ∧ MQTTHeader.type header = k ∧
    body.length < 128 ^ 4 ∧ Holds m w.c.readbuf (Base128.frame header body) ∧
      ∀ x, w.c.readbuf ≤ x → x < w.c.readbuf + 7 → w.mem x = m x

theorem Holding.got {k : ℕ} (h : Holding w s k) : s.phase.Got k := by
  obtain ⟨header, body, calls, -, hphase, htype, -⟩ := h
  exact ⟨header, body, calls, hphase, htype⟩

theorem cycleEnd_holding {header : UInt8} {body : List UInt8} {k : ℕ} (h : Follows w s)
    (hphase : s.phase = .handling header body []) (htype : MQTTHeader.type header = k) (hpublish : k ≠ publish)
    (hpubrec : k ≠ pubrec) (hholds : Holds w.mem w.c.readbuf (Base128.frame header body))
    (hlen : body.length < 128 ^ 4) :
    wp Unfinished (cycleEnd E rounds k) (fun r w' => ∃ s', Follows w' s' ∧ Later s s' ∧ s'.Free ∧
      (r = k ∧ Holding w' s' k)) w := by
  have hfree : s.Free := by
    refine ⟨Session.served_of_type hphase (htype ▸ hpublish), ?_⟩
    rw [hphase]
    left
    unfold reply
    rw [htype, if_neg hpublish, if_neg hpubrec]
  apply wp_mono (cycleEnd_spec h hfree)
  rintro r w' ⟨hr, s', hs', hlater, hphase', hreadbuf, hkept⟩
  refine ⟨s', hs', hlater, hlater.free hphase' hfree, hr, header, body, [], w.mem, hphase'.trans hphase, htype, hlen,
    ?_⟩
  rw [hreadbuf]
  exact ⟨hholds, hkept⟩

/-- One round of the client: whatever arrives, it is answered as it must be before the next packet, and a packet
whose type is returned is there to be read. -/
theorem cycle_spec (hE : E.Quiet) (h : Follows w s) (hfree : s.Free) :
    wp Unfinished (cycle E rounds timer) (fun r w' => ∃ s', Follows w' s' ∧ Later s s' ∧ s'.Free ∧
      ∀ k < 16, k ≠ publish → k ≠ pubrec → r = k → Holding w' s' k) w := by
  unfold cycle
  rw [wp_bind]
  apply wp_mono readPacket_spec
  rintro r w₁ ⟨hc, ⟨rfl, hlog⟩ | ⟨header, body, rfl, hlog, hlen, hholds⟩⟩
  · have htype : (failure % 65536).toNat = 65535 := by decide
    have hfollows : Follows w₁ s := h.frame hlog (by rw [hc]; rfl)
    simp only [htype, wp_ite]
    refine ⟨fun hp => absurd hp (by decide), fun _ => ⟨fun hp => absurd hp (by decide), fun _ =>
      ⟨fun hp => absurd hp (by decide), fun _ => ?_⟩⟩⟩
    apply wp_mono (cycleEnd_spec hfollows hfree)
    rintro r w' ⟨hr, s', hs', hlater, hphase, -⟩
    refine ⟨s', hs', hlater, hlater.free hphase hfree, ?_⟩
    intro k hk _ _ hrk
    omega
  · have hbyte := header.toNat_lt
    have htype : ((MQTTHeader.type header : ℤ) % 65536).toNat = MQTTHeader.type header := by
      unfold MQTTHeader.type
      omega
    rw [← hc] at hholds
    obtain ⟨s₁, hlater₁, hphase₁, hreceive⟩ : ∃ s₁, Later s s₁ ∧ s₁.phase = .handling header body [] ∧
        ∀ w₂ : World ω η, w₂.log = w₁.log → w₂.c = { w₁.c with
          pingOutstanding := w₁.c.pingOutstanding && MQTTHeader.type header != pingresp } →
          Follows w₂ s₁ := by
      refine ⟨{ s with
        phase := .handling header body []
        pinged := s.pinged && MQTTHeader.type header != pingresp }, ⟨rfl, rfl, rfl, rfl⟩, rfl, ?_⟩
      intro w₂ hlog₂ hc₂
      apply h.receive hfree (hlog₂.trans hlog)
      rwa [hc] at hc₂
    have hheard : MQTTHeader.type header ≠ pingresp → Follows w₁ s₁ := by
      intro hne
      apply hreceive w₁ rfl
      rw [bne_iff_ne.mpr hne, Bool.and_true]
    have hfinish : ∀ w₂ : World ω η, Follows w₂ s₁ → w₂.mem = w₁.mem → w₂.c.readbuf = w₁.c.readbuf →
        MQTTHeader.type header ≠ publish → MQTTHeader.type header ≠ pubrec →
        wp Unfinished (cycleEnd E rounds (MQTTHeader.type header)) (fun r w' => ∃ s', Follows w' s' ∧
          Later s s' ∧ s'.Free ∧ ∀ k < 16, k ≠ publish → k ≠ pubrec → r = k → Holding w' s' k) w₂ := by
      intro w₂ h₂ hmem hreadbuf hpublish hpubrec
      rw [← hmem, ← hreadbuf] at hholds
      apply wp_mono (cycleEnd_holding h₂ hphase₁ rfl hpublish hpubrec hholds hlen)
      rintro r w' ⟨s', hs', hlater, hfree', hr, hholding⟩
      refine ⟨s', hs', hlater₁.trans hlater, hfree', ?_⟩
      intro k _ _ _ hk
      obtain rfl : MQTTHeader.type header = k := by exact_mod_cast hr.symm.trans hk
      exact hholding
    have hanswered : ∀ (j : ℕ) (r : ℤ) (w' : World ω η), (j = publish ∨ j = pubrec) → (r = j ∨ r = failure) →
        (∃ s', Follows w' s' ∧ Later s₁ s' ∧ s'.Free) → ∃ s', Follows w' s' ∧ Later s s' ∧
          s'.Free ∧ ∀ k < 16, k ≠ publish → k ≠ pubrec → r = k → Holding w' s' k := by
      rintro j r w' hj hr ⟨s', hs', hlater, hfree'⟩
      refine ⟨s', hs', hlater₁.trans hlater, hfree', ?_⟩
      intro k _ hpublish hpubrec hk
      unfold failure at hr
      omega
    simp only [htype, wp_ite]
    refine ⟨fun hpub => ?_, fun hpub => ⟨fun hrec => ?_, fun hrec => ⟨fun hping => ?_, fun hping => ?_⟩⟩⟩
    · have hne : MQTTHeader.type header ≠ pingresp := by
        rw [hpub]
        decide
      apply wp_mono (cyclePublish_spec hE (hheard hne) hphase₁ hpub hholds hlen)
      exact fun r w' hw' => hanswered publish r w' (.inl rfl) hw'.1 hw'.2
    · have hne : MQTTHeader.type header ≠ pingresp := by
        rw [hrec]
        decide
      apply wp_mono (cyclePubrec_spec (hheard hne) hphase₁ hrec hholds hlen)
      exact fun r w' hw' => hanswered pubrec r w' (.inr rfl) hw'.1 hw'.2
    · simp only [setClient, wp_bind, wp_of]
      refine hfinish { w₁ with c := { w₁.c with pingOutstanding := false } } (hreceive _ rfl ?_) rfl rfl hpub hrec
      rw [hping]
      simp
    · exact hfinish w₁ (hheard hping) rfl rfl hpub hrec

theorem waitforLoop_spec (hE : E.Quiet) {k : ℕ} (hk : k < 16 ∧ k ≠ publish ∧ k ≠ pubrec) {rc : ℤ} (h : Follows w s)
    (hfree : s.Free) (hrc : rc ≠ k) :
    wp Unfinished (waitforLoop E rounds k timer n rc) (fun r w' => ∃ s', Follows w' s' ∧ Later s s' ∧
      s'.Free ∧ (r = k → Holding w' s' k)) w := by
  induction n generalizing w s rc with
  | zero => exact .stop h.unfinished
  | succ n ih =>
    unfold waitforLoop
    rw [wp_bind]
    apply wp_mono timerIsExpired_spec
    rintro expired _ ⟨env, rfl⟩
    have hnow : Follows ({ w with env := env } : World ω η) s := h.frame rfl rfl
    rw [wp_ite]
    refine ⟨fun _ => .pure ⟨s, hnow, Later.refl s, hfree, fun he => absurd he hrc⟩, fun _ => ?_⟩
    rw [wp_bind]
    apply wp_mono (cycle_spec hE hnow hfree)
    rintro r w₁ ⟨s₁, hs₁, hlater, hfree₁, hholding⟩
    rw [wp_ite]
    constructor
    · intro hr
      exact .pure ⟨s₁, hs₁, hlater, hfree₁, fun _ => hholding k hk.1 hk.2.1 hk.2.2 hr⟩
    · intro hr
      apply wp_mono (ih hs₁ hfree₁ hr)
      rintro r' w' ⟨s', hs', hlater', hrest⟩
      exact ⟨s', hs', hlater.trans hlater', hrest⟩

theorem waitfor_spec (hE : E.Quiet) {k : ℕ} (hk : k < 16 ∧ k ≠ publish ∧ k ≠ pubrec) (h : Follows w s)
    (hfree : s.Free) :
    wp Unfinished (waitfor E rounds k timer) (fun r w' => ∃ s', Follows w' s' ∧ Later s s' ∧ s'.Free ∧
      (r = k → Holding w' s' k)) w := by
  apply waitforLoop_spec hE hk h hfree
  unfold failure
  omega

theorem yieldLoop_spec (hE : E.Quiet) (h : Follows w s) (hfree : s.Free) :
    wp Unfinished (yieldLoop E rounds timer n) (fun _ w' => ∃ s', Follows w' s' ∧ s'.Free) w := by
  induction n generalizing w s with
  | zero => exact .stop h.unfinished
  | succ n ih =>
    unfold yieldLoop
    rw [wp_bind]
    apply wp_mono (cycle_spec hE h hfree)
    rintro r w₁ ⟨s₁, hs₁, -, hfree₁, -⟩
    rw [wp_ite]
    refine ⟨fun _ => .pure ⟨s₁, hs₁, hfree₁⟩, fun _ => ?_⟩
    rw [wp_bind]
    apply wp_mono timerIsExpired_spec
    rintro expired _ ⟨env, rfl⟩
    have hnow : Follows ({ w₁ with env := env } : World ω η) s₁ := hs₁.frame rfl rfl
    rw [wp_ite]
    exact ⟨fun _ => .pure ⟨s₁, hnow, hfree₁⟩, fun _ => ih hnow hfree₁⟩

end EmbeddedTemplate.Mqtt
