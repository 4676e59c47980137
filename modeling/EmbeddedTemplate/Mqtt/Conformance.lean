import EmbeddedTemplate.Mqtt.Rounds

/-! The client of `MQTTClient.c` is a run of the session machine, whatever its application asks for. -/
namespace EmbeddedTemplate.Mqtt

open ByteMem Hoare

section Packets
variable {m : Mem} {buf : ℕ} {buflen : ℤ} {id : UInt16} {text : List UInt8}

theorem sources_topicString (buf size : ℕ) (text : List UInt8) : Sources buf size [topicString text] := by
  apply sources_cstrings
  intro s hs
  obtain rfl := List.mem_singleton.mp hs
  exact ⟨rfl, rfl⟩

theorem Serializes.write {header : UInt8} {body : List UInt8} {r : Mem × ℤ}
    (h : Serializes m buf buflen header body r) (hok : 0 < r.2) :
    r = (ByteMem.write m buf (Base128.frame header body), ((Base128.frame header body).length : ℤ)) := by
  have hneg : ¬ (0 : ℤ) < bufferTooShort := by decide
  unfold Serializes at h
  split_ifs at h
  · rw [h] at hok
    exact absurd hok hneg
  · exact h

theorem serializeSubscribe_sent {qos : QoS} (n : ℕ)
    (hok : 0 < (serializeSubscribe m buf buflen 0 (UInt16.ofNat n) [(topicString text, qos.value)]).2) :
    serializeSubscribe m buf buflen 0 (UInt16.ofNat n) [(topicString text, qos.value)] =
      (write m buf (subscribePacket n text qos), ((subscribePacket n text qos).length : ℤ)) :=
  (serializes_subscribe (sources_topicString buf _ text) fun _ => le_rfl).write hok

theorem serializeUnsubscribe_sent (n : ℕ)
    (hok : 0 < (serializeUnsubscribe m buf buflen 0 (UInt16.ofNat n) [topicString text]).2) :
    serializeUnsubscribe m buf buflen 0 (UInt16.ofNat n) [topicString text] =
      (write m buf (unsubscribePacket n text), ((unsubscribePacket n text).length : ℤ)) :=
  (serializes_unsubscribe (sources_topicString buf _ text) fun _ => le_rfl).write hok

/-- The content of a PUBLISH is what the payload is when it is copied. -/
theorem serializePublish_sent {qos : ℤ} {retained : UInt8} {payload n : ℕ}
    (hok : 0 < (serializePublish m buf buflen 0 qos retained id (topicString text) payload n).2) :
    ∃ content, serializePublish m buf buflen 0 qos retained id (topicString text) payload n =
      (write m buf (publishPacket 0 qos retained id text content),
        ((publishPacket 0 qos retained id text content).length : ℤ)) := by
  have hneg : ¬ (0 : ℤ) < bufferTooShort := by decide
  have hlen : ∀ content : List UInt8, content.length = n →
      serializePublishLength qos (topicString text) n = ((publishBody qos id text content).length : ℤ) := by
    intro content hcontent
    rw [length_publishBody, hcontent]
    unfold serializePublishLength strlen topicString
    dsimp only
    split_ifs
    all_goals omega
  have htopic : ∀ w : Cursor, writeMQTTString w (topicString text) = emit w (lenString text) :=
    fun w => writeCString_eq w text
  have hid : ∀ w : Cursor, (if 0 < qos then writeInt w id.toNat else w) =
      emit w (if 0 < qos then int16 id.toNat else []) := by
    intro w
    split_ifs
    · exact writeInt_eq w _
    · rfl
  have hcopy : ∀ v : Cursor, copyBytes v payload n = emit v (read v.1 payload n) := by
    intro v
    simp [copyBytes, emit]
  unfold serializePublish at hok ⊢
  by_cases hshort : buflen < packetLen (serializePublishLength qos (topicString text) n)
  · rw [if_pos hshort] at hok
    exact absurd hok hneg
  · rw [if_neg hshort]
    dsimp only
    rw [Int.toNat_natCast, hid, htopic, hcopy]
    generalize hcontent : read _ payload n = content
    have hn : content.length = n := by
      rw [← hcontent, length_read]
    refine ⟨content, ?_⟩
    rw [hlen content hn, writeHeader_eq, emit_emit, emit_emit, emit_emit, written_emit]
    simp only [publishPacket, Base128.frame, publishBody, List.cons_append]

theorem carries_publish {qos : QoS} {retained : UInt8} {topic content : List UInt8}
    (h : Carries (publishPacket 0 qos.value retained id topic content)) : qos ≠ .qos0 := by
  rintro rfl
  obtain ⟨header, hheader, htype⟩ := h
  obtain rfl : MQTTHeader.ofBits publish 0 0 retained = header := Option.some.inj hheader
  rw [MQTTHeader.type_ofBits, MQTTHeader.qos_ofBits] at htype
  revert htype
  decide

end Packets
variable {ω η : Type} {E : Env ω η} {w w' : World ω η} {s s' : Session η} {rounds n : ℕ} {timer : Timer}

theorem sendRequest_spec {packet : List UInt8} {awaited : Option ℕ} (h : Follows w s)
    (hfree : s.Free) (hconnected : s.connected = true) (hrequest : Request s.id packet awaited)
    (hfresh : Carries packet → s.fresh = true) :
    wp Unfinished (sendPacket E rounds packet.length timer) (fun rc w' => ∃ s', Follows w' s' ∧ s'.Free ∧
      s'.connected = true ∧ (rc = success → s'.pending = some (packet, awaited)))
      { w with mem := write w.mem w.c.buf packet } := by
  refine wp_mono (sendPacket_spec h.unfinished (read_write w.mem w.c.buf packet)) ?_
  rintro rc w' ⟨-, hsame, -, hlog⟩
  have hstep := Session.Step.request (s := s) (decide (rc = success)) hfree hconnected hrequest hfresh
  refine ⟨_, h.event hstep hlog hsame rfl rfl rfl rfl, Session.free_of_idle rfl, hconnected, ?_⟩
  intro hok
  exact if_pos (decide_eq_true hok)

theorem getNextPacketId_spec (h : Follows w s) (hfree : s.Free) :
    wp Unfinished getNextPacketId (fun id w' => id = UInt16.ofNat (nextId s.id) ∧
      Follows w' { s with id := nextId s.id, fresh := true } ∧ w'.c.buf = w.c.buf) w := by
  have hstep := Session.Step.numbered hfree
  rw [h.id] at hstep ⊢
  unfold getNextPacketId
  simp only [client, setClient, note, wp_bind, wp_of, wp_pure]
  exact ⟨rfl, ⟨h.run.snoc hstep, h.connected, h.pinged, rfl, h.slots, h.noDefault, h.apart⟩, trivial⟩

theorem complete_spec {id : ℕ} {packet : List UInt8} {awaited : Option ℕ} {call : Finished} (h : Follows w s)
    (hfree : s.Free) (hconnected : s.connected = true) (hpending : s.pending = some (packet, awaited))
    (hasks : Asks id call packet awaited) (hgot : ∀ k, awaited = some k → s.phase.Got k) :
    wp Unfinished (complete call) (fun _ w' => ∃ s', Follows w' s' ∧ s'.Free) w := by
  have hstep := Session.Step.completed call hfree hconnected hpending hasks hgot
  unfold complete
  simp only [note, wp_bind, wp_of, wp_pure]
  exact ⟨_, h.event hstep rfl rfl rfl rfl rfl rfl, hfree.congr rfl rfl⟩

theorem accepted_of_holding (h : Holding w s connack)
    (hcode : (deserializeConnack w.mem 0 255 w.c.readbuf).2.2 = 0) :
    ∃ header body calls, s.phase = .handling header body calls ∧ MQTTHeader.type header = connack ∧
      body[1]? = some 0 := by
  obtain ⟨header, body, calls, m, hphase, htype, hlen, hholds, hkept⟩ := h
  refine ⟨header, body, calls, hphase, htype, ?_⟩
  have hbytes : (Base128.encode body.length).length ≤ 4 := (Base128.length_encode_le_iff _ 3).mpr hlen
  obtain ⟨hheader, hlength, hbody⟩ := holds_frame hholds
  have hheader' : w.mem w.c.readbuf = header := by
    rw [hkept _ le_rfl (by omega), hheader]
  have hlength' : Holds w.mem (w.c.readbuf + 1) (Base128.encode body.length) := by
    apply hlength.congr
    intro q hlo hhi
    exact hkept q (by omega) (by omega)
  unfold deserializeConnack at hcode
  simp only [readChar, hheader', htype, ne_eq, not_true_eq_false, if_false,
    packetDecodeBuf_of_holds hlen hlength'] at hcode
  split_ifs at hcode with hshort
  · have hne : ¬ (255 : UInt8) = 0 := by decide
    exact absurd hcode hne
  · have htwo : 1 < body.length := by omega
    have hbyte := hbody.getElem htwo
    rw [List.getElem?_eq_getElem htwo, ← hbyte, ← hkept _ (by omega) (by omega)]
    exact congrArg some hcode

theorem connectAnswer_spec (hE : E.Quiet) {packet : List UInt8} (h : Follows w s) (hfree : s.Free)
    (hconnected : s.connected = false) (hpending : s.pending = some (packet, some connack)) :
    wp Unfinished (connectAnswer E rounds timer) (fun _ w' => ∃ s', Follows w' s' ∧ s'.Free) w := by
  unfold connectAnswer
  rw [wp_bind]
  apply wp_mono (waitfor_spec hE (k := connack) (by decide) h hfree)
  rintro got w₁ ⟨s₁, hs₁, hlater, hfree₁, hgot⟩
  rw [wp_ite]
  refine ⟨fun hk => ?_, fun _ => .pure ⟨s₁, hs₁, hfree₁⟩⟩
  simp only [client, memory, note, setClient, wp_bind, wp_of, wp_ite, wp_pure]
  refine ⟨fun _ => ⟨fun hcode => ?_, fun _ => ⟨s₁, hs₁, hfree₁⟩⟩, fun _ => ⟨s₁, hs₁, hfree₁⟩⟩
  obtain ⟨header, body, calls, hphase, htype, hbody⟩ := accepted_of_holding (hgot hk) hcode
  have hstep := Session.Step.accepted hfree₁ (hlater.connected.trans hconnected) (hlater.pending.trans hpending)
    hphase htype hbody
  exact ⟨_, ⟨hs₁.run.snoc hstep, rfl, hs₁.pinged, hs₁.id, hs₁.slots, hs₁.noDefault, hs₁.apart⟩,
    hfree₁.congr rfl rfl⟩

theorem mqttConnect_spec (hE : E.Quiet) {options : Option ConnectData} (h : Follows w s) (hfree : s.Free) :
    wp Unfinished (mqttConnect E rounds options) (fun _ w' => ∃ s', Follows w' s' ∧ s'.Free) w := by
  unfold mqttConnect
  simp only [client, wp_bind, wp_of]
  refine wp_ite.mpr ⟨fun _ => .pure ⟨s, h, hfree⟩, fun hconnected => ?_⟩
  simp only [timerCountdownMs, timerCountdownSecond, osGetTime, setClient, memory, setMemory, wp_bind, wp_of,
    wp_pure]
  refine wp_ite.mpr ⟨fun _ => .pure ⟨s, h.frame rfl rfl, hfree⟩, fun hok => ?_⟩
  obtain ⟨packet, hhead, hr⟩ := serializeConnect_sent (not_le.mp hok)
  rw [wp_bind, hr]
  refine wp_mono (sendPacket_spec h.unfinished (read_write w.mem w.c.buf packet)) ?_
  rintro rc w₁ ⟨-, hsame, -, hlog⟩
  have hfalse : s.connected = false := by
    rw [h.connected]
    exact Bool.eq_false_iff.mpr hconnected
  have hstep := Session.Step.connect (s := s) (decide (rc = success)) hfree hfalse hhead
  have hsent : Follows w₁ _ := h.event hstep hlog hsame rfl rfl rfl rfl
  refine wp_ite.mpr ⟨fun _ => .pure ⟨_, hsent, Session.free_of_idle rfl⟩, fun hrc => ?_⟩
  exact connectAnswer_spec hE hsent (Session.free_of_idle rfl) hfalse (if_pos (decide_eq_true (not_not.mp hrc)))

/-- The table of the client takes a handler when the one of the machine has room for it. -/
theorem Follows.take (h : Follows w s) {topicFilter : List UInt8} {fp : Option η} {table : HandlerTable η}
    (htake : w.c.messageHandlers.take topicFilter fp = some table) :
    s.handlers.length < maxMessageHandlers ∧ ∃ free : List (MessageHandlers η), (∀ g ∈ free, g.topicFilter = none) ∧
      table.slots = (s.handlers ++ [(topicFilter, fp)]).map (fun g => ⟨some g.1, g.2⟩) ++ free := by
  obtain ⟨free, hfree, hslots⟩ := h.slots
  have hskip : ∀ (hs : List (List UInt8 × Option η)) (free : List (MessageHandlers η)),
      takeSlot topicFilter fp (hs.map (fun g => ⟨some g.1, g.2⟩) ++ free) =
        (takeSlot topicFilter fp free).map (hs.map (fun g => ⟨some g.1, g.2⟩) ++ ·) := by
    intro hs free
    induction hs with
    | nil => simp
    | cons g hs ih => simp [takeSlot, ih, Function.comp_def]
  have hlength := w.c.messageHandlers.length_slots
  unfold HandlerTable.take at htake
  split at htake
  · cases htake
  · rename_i slots hslots'
    obtain rfl := Option.some.inj htake
    rw [hslots, hskip] at hslots'
    obtain ⟨rest, hrest, rfl⟩ := Option.map_eq_some_iff.mp hslots'
    cases free with
    | nil => cases hrest
    | cons g free =>
      have hg : g.topicFilter.isNone = true := by
        rw [hfree g List.mem_cons_self]
        rfl
      rw [takeSlot, if_pos hg] at hrest
      obtain rfl := Option.some.inj hrest
      rw [hslots, List.length_append, List.length_map, List.length_cons] at hlength
      refine ⟨by omega, free, fun k hk => hfree k (List.mem_cons_of_mem g hk), ?_⟩
      simp

theorem subscribeAnswer_spec (hE : E.Quiet) {charSigned : Bool} {topicFilter : List UInt8} {qos : QoS}
    {fp : Option η} {id : ℕ} (h : Follows w s) (hfree : s.Free) (hconnected : s.connected = true)
    (hpending : s.pending = some (subscribePacket id topicFilter qos, some suback)) :
    wp Unfinished (subscribeAnswer E rounds charSigned topicFilter fp timer)
      (fun _ w' => ∃ s', Follows w' s' ∧ s'.Free) w := by
  unfold subscribeAnswer
  rw [wp_bind]
  apply wp_mono (waitfor_spec hE (k := suback) (by decide) h hfree)
  rintro got w₁ ⟨s₁, hs₁, hlater, hfree₁, hgot⟩
  rw [wp_ite]
  refine ⟨fun hk => ?_, fun _ => .pure ⟨s₁, hs₁, hfree₁⟩⟩
  simp only [client, memory, wp_bind, wp_of]
  refine wp_ite.mpr ⟨fun _ => ?_, fun _ => .pure ⟨s₁, hs₁, hfree₁⟩⟩
  cases htake : w₁.c.messageHandlers.take topicFilter fp with
  | none => exact .pure ⟨s₁, hs₁, hfree₁⟩
  | some table =>
    obtain ⟨hroom, hslots⟩ := hs₁.take htake
    have hstep := Session.Step.registered topicFilter fp hfree₁ (hlater.connected.trans hconnected)
      (hlater.pending.trans hpending) (hgot hk).got hroom
    have hfree₂ : Session.Free { s₁ with pending := none, handlers := s₁.handlers ++ [(topicFilter, fp)] } := by
      obtain ⟨header, body, calls, hphase, htype⟩ := (hgot hk).got
      refine ⟨Session.served_of_type hphase ?_, hfree₁.answered⟩
      rw [htype]
      decide
    simp only [setClient, note, wp_bind, wp_of, wp_pure]
    exact ⟨_, ⟨hs₁.run.snoc hstep, hs₁.connected, hs₁.pinged, hs₁.id, hslots, hs₁.noDefault, hs₁.apart⟩, hfree₂⟩

theorem mqttSubscribe_spec (hE : E.Quiet) {charSigned : Bool} {topicFilter : List UInt8} {qos : QoS} {fp : Option η}
    (h : Follows w s) (hfree : s.Free) :
    wp Unfinished (mqttSubscribe E rounds charSigned topicFilter qos fp)
      (fun _ w' => ∃ s', Follows w' s' ∧ s'.Free) w := by
  unfold mqttSubscribe
  simp only [client, wp_bind, wp_of]
  refine wp_ite.mpr ⟨fun _ => .pure ⟨s, h, hfree⟩, fun hconnected => ?_⟩
  have htrue : s.connected = true := by
    rw [h.connected]
    exact Bool.eq_true_of_not_eq_false hconnected
  simp only [wp_bind]
  apply wp_mono timerCountdownMs_spec
  rintro t _ ⟨env, rfl⟩
  have hnow : Follows ({ w with env := env } : World ω η) s := h.frame rfl rfl
  apply wp_mono (getNextPacketId_spec hnow hfree)
  rintro _ w₁ ⟨rfl, hs₁, hbuf⟩
  replace hbuf : w₁.c.buf = w.c.buf := hbuf
  simp only [memory, setMemory, wp_of, ← hbuf]
  have hfree₁ : Session.Free { s with id := nextId s.id, fresh := true } := hfree.congr rfl rfl
  refine wp_ite.mpr ⟨fun _ => .pure ⟨_, hs₁.frame rfl rfl, hfree₁⟩, fun hok => ?_⟩
  rw [wp_bind, serializeSubscribe_sent (nextId s.id) (not_le.mp hok)]
  apply wp_mono (sendRequest_spec hs₁ hfree₁ htrue (.subscribe topicFilter qos) fun _ => rfl)
  rintro rc w₂ ⟨s₂, hs₂, hfree₂, htrue₂, hpending⟩
  refine wp_ite.mpr ⟨fun _ => .pure ⟨s₂, hs₂, hfree₂⟩, fun hrc => ?_⟩
  exact subscribeAnswer_spec hE hs₂ hfree₂ htrue₂ (hpending (not_not.mp hrc))

theorem unsubscribeAnswer_spec (hE : E.Quiet) {id : ℕ} {topicFilter : List UInt8} (h : Follows w s) (hfree : s.Free)
    (hconnected : s.connected = true)
    (hpending : s.pending = some (unsubscribePacket id topicFilter, some unsuback)) :
    wp Unfinished (unsubscribeAnswer E rounds topicFilter timer) (fun _ w' => ∃ s', Follows w' s' ∧ s'.Free) w := by
  unfold unsubscribeAnswer
  rw [wp_bind]
  apply wp_mono (waitfor_spec hE (k := unsuback) (by decide) h hfree)
  rintro got w₁ ⟨s₁, hs₁, hlater, hfree₁, hgot⟩
  rw [wp_ite]
  refine ⟨fun hk => ?_, fun _ => .pure ⟨s₁, hs₁, hfree₁⟩⟩
  apply complete_spec hs₁ hfree₁ (hlater.connected.trans hconnected) (hlater.pending.trans hpending)
    (.unsubscribe topicFilter)
  rintro _ ⟨⟩
  exact (hgot hk).got

theorem mqttUnsubscribe_spec (hE : E.Quiet) {topicFilter : List UInt8} (h : Follows w s) (hfree : s.Free) :
    wp Unfinished (mqttUnsubscribe E rounds topicFilter) (fun _ w' => ∃ s', Follows w' s' ∧ s'.Free) w := by
  unfold mqttUnsubscribe
  simp only [client, wp_bind, wp_of]
  refine wp_ite.mpr ⟨fun _ => .pure ⟨s, h, hfree⟩, fun hconnected => ?_⟩
  have htrue : s.connected = true := by
    rw [h.connected]
    exact Bool.eq_true_of_not_eq_false hconnected
  simp only [wp_bind]
  apply wp_mono timerCountdownMs_spec
  rintro t _ ⟨env, rfl⟩
  have hnow : Follows ({ w with env := env } : World ω η) s := h.frame rfl rfl
  apply wp_mono (getNextPacketId_spec hnow hfree)
  rintro _ w₁ ⟨rfl, hs₁, hbuf⟩
  replace hbuf : w₁.c.buf = w.c.buf := hbuf
  simp only [memory, setMemory, wp_of, ← hbuf]
  have hfree₁ : Session.Free { s with id := nextId s.id, fresh := true } := hfree.congr rfl rfl
  refine wp_ite.mpr ⟨fun _ => .pure ⟨_, hs₁.frame rfl rfl, hfree₁⟩, fun hok => ?_⟩
  rw [wp_bind, serializeUnsubscribe_sent (nextId s.id) (not_le.mp hok)]
  apply wp_mono (sendRequest_spec hs₁ hfree₁ htrue (.unsubscribe topicFilter) fun _ => rfl)
  rintro rc w₂ ⟨s₂, hs₂, hfree₂, htrue₂, hpending⟩
  refine wp_ite.mpr ⟨fun _ => .pure ⟨s₂, hs₂, hfree₂⟩, fun hrc => ?_⟩
  exact unsubscribeAnswer_spec hE hs₂ hfree₂ htrue₂ (hpending (not_not.mp hrc))

theorem ackAnswer_spec (hE : E.Quiet) {id k : ℕ} {packet : List UInt8} {call : Finished}
    (hk : k < 16 ∧ k ≠ publish ∧ k ≠ pubrec) (h : Follows w s) (hfree : s.Free) (hconnected : s.connected = true)
    (hpending : s.pending = some (packet, some k)) (hasks : Asks id call packet (some k)) :
    wp Unfinished (ackAnswer E rounds k call timer) (fun _ w' => ∃ s', Follows w' s' ∧ s'.Free) w := by
  unfold ackAnswer
  rw [wp_bind]
  apply wp_mono (waitfor_spec hE hk h hfree)
  rintro got w₁ ⟨s₁, hs₁, hlater, hfree₁, hgot⟩
  rw [wp_ite]
  refine ⟨fun hgotk => ?_, fun _ => .pure ⟨s₁, hs₁, hfree₁⟩⟩
  simp only [client, memory, environment, wp_bind, wp_of]
  refine wp_ite.mpr ⟨fun _ => .pure ⟨s₁, hs₁, hfree₁⟩, fun _ => ?_⟩
  apply complete_spec hs₁ hfree₁ (hlater.connected.trans hconnected) (hlater.pending.trans hpending) hasks
  rintro _ ⟨⟩
  exact (hgot hgotk).got

theorem publishAnswer_spec (hE : E.Quiet) {id : ℕ} {packet topicName : List UInt8} {qos : QoS} (h : Follows w s)
    (hfree : s.Free) (hconnected : s.connected = true) (hpending : s.pending = some (packet, qos.answer))
    (hasks : Asks id (.published topicName qos) packet qos.answer) :
    wp Unfinished (publishAnswer E rounds topicName qos timer) (fun _ w' => ∃ s', Follows w' s' ∧ s'.Free) w := by
  cases qos with
  | qos0 =>
    apply complete_spec h hfree hconnected hpending hasks
    rintro _ ⟨⟩
  | qos1 => exact ackAnswer_spec hE (by decide) h hfree hconnected hpending hasks
  | qos2 => exact ackAnswer_spec hE (by decide) h hfree hconnected hpending hasks

theorem numberMessage_spec {message : Message} (h : Follows w s) (hfree : s.Free) :
    wp Unfinished (numberMessage message) (fun message' w' => ∃ s', Follows w' s' ∧ s'.Free ∧
      s'.connected = s.connected ∧ w'.c.buf = w.c.buf ∧
        (message'.qos ≠ .qos0 → message'.id = UInt16.ofNat s'.id ∧ s'.fresh = true)) w := by
  unfold numberMessage
  rw [wp_ite]
  constructor
  · intro _
    rw [wp_bind]
    apply wp_mono (getNextPacketId_spec h hfree)
    rintro _ w₁ ⟨rfl, hs₁, hbuf⟩
    exact .pure ⟨_, hs₁, hfree.congr rfl rfl, rfl, hbuf, fun _ => ⟨rfl, rfl⟩⟩
  · intro hqos
    refine .pure ⟨s, h, hfree, rfl, rfl, fun hn => ?_⟩
    cases hmessage : message.qos with
    | qos0 => exact absurd hmessage hn
    | qos1 => exact absurd (.inl hmessage) hqos
    | qos2 => exact absurd (.inr hmessage) hqos

theorem mqttPublish_spec (hE : E.Quiet) {topicName : List UInt8} {message : Message} (h : Follows w s)
    (hfree : s.Free) :
    wp Unfinished (mqttPublish E rounds topicName message)
      (fun _ w' => ∃ s', Follows w' s' ∧ s'.Free) w := by
  unfold mqttPublish
  simp only [client, wp_bind, wp_of]
  refine wp_ite.mpr ⟨fun _ => .pure ⟨s, h, hfree⟩, fun hconnected => ?_⟩
  have htrue : s.connected = true := by
    rw [h.connected]
    exact Bool.eq_true_of_not_eq_false hconnected
  have hnow : Follows ({ w with env := (E.time w.env).1 } : World ω η) s := h.frame rfl rfl
  simp only [timerCountdownMs, osGetTime, wp_bind, wp_of, wp_pure]
  apply wp_mono (numberMessage_spec hnow hfree)
  rintro message' w₁ ⟨s₁, hs₁, hfree₁, hsame, hbuf, hid⟩
  replace hbuf : w₁.c.buf = w.c.buf := hbuf
  simp only [memory, setMemory, wp_of, ← hbuf]
  refine wp_ite.mpr ⟨fun _ => .pure ⟨_, hs₁.frame rfl rfl, hfree₁⟩, fun hok => ?_⟩
  obtain ⟨content, hr⟩ := serializePublish_sent (not_le.mp hok)
  have hrequest : Request s₁.id _ _ := .publish message'.qos message'.retained message'.id topicName content
    fun hq => (hid hq).1
  rw [wp_bind, hr]
  apply wp_mono (sendRequest_spec hs₁ hfree₁ (hsame.trans htrue) hrequest fun hc => (hid (carries_publish hc)).2)
  rintro rc w₂ ⟨s₂, hs₂, hfree₂, htrue₂, hpending⟩
  refine wp_ite.mpr ⟨fun _ => .pure ⟨s₂, hs₂, hfree₂⟩, fun hrc => ?_⟩
  simp only [wp_bind, wp_pure]
  exact publishAnswer_spec hE hs₂ hfree₂ htrue₂ (hpending (not_not.mp hrc))
    (.publish message'.qos message'.retained message'.id topicName content fun hq => (hid hq).1)

theorem mqttYield_spec (hE : E.Quiet) {timeoutMs : UInt32} (h : Follows w s) (hfree : s.Free) :
    wp Unfinished (mqttYield E rounds timeoutMs) (fun _ w' => ∃ s', Follows w' s' ∧ s'.Free) w := by
  unfold mqttYield
  simp only [timerCountdownMs, osGetTime, wp_bind, wp_of, wp_pure]
  exact yieldLoop_spec hE (h.frame rfl rfl) hfree

theorem sendDisconnect_spec (h : Follows w s) (hfree : s.Free) :
    wp Unfinished (sendDisconnect E rounds timer) (fun _ w' => Follows w' s) w := by
  have hpacket := serializeZero_eq w.mem w.c.buf w.c.bufSize disconnect
  have hneg : ¬ (0 : ℤ) < bufferTooShort := by decide
  unfold sendDisconnect
  simp only [client, memory, setMemory, serializeDisconnect, wp_bind, wp_of]
  refine wp_ite.mpr ⟨fun hok => ?_, fun _ => .pure (h.frame rfl rfl)⟩
  rw [hpacket] at hok ⊢
  split_ifs at hok ⊢
  · exact absurd hok hneg
  · refine wp_mono (sendPacket_spec h.unfinished (read_write w.mem w.c.buf _)) ?_
    rintro rc w' ⟨-, hsame, -, hlog⟩
    exact h.event (.disconnect _ hfree) hlog hsame rfl rfl rfl rfl

theorem mqttDisconnect_spec (h : Follows w s) (hfree : s.Free) :
    wp Unfinished (mqttDisconnect E rounds) (fun _ w' => ∃ s', Follows w' s' ∧ s'.Free) w := by
  unfold mqttDisconnect
  simp only [client, timerCountdownMs, osGetTime, wp_bind, wp_of, wp_pure]
  refine wp_mono (sendDisconnect_spec (h.frame rfl rfl) hfree) ?_
  intro rc w₁ hs₁
  simp only [setClient, note, wp_of]
  exact ⟨_, ⟨hs₁.run.snoc (.closed hfree), rfl, hs₁.pinged, hs₁.id, hs₁.slots, hs₁.noDefault, hs₁.apart⟩,
    hfree.congr rfl rfl⟩

def HandlerTable.registered (t : HandlerTable η) : List (List UInt8 × Option η) :=
  t.slots.filterMap fun h => h.topicFilter.map (·, h.fp)

theorem Follows.registered (h : Follows w s) : w.c.messageHandlers.registered = s.handlers := by
  obtain ⟨free, hfree, hslots⟩ := h.slots
  have hnone : ∀ g ∈ free, (g.topicFilter.map fun f => (f, g.fp)) = none := by
    intro g hg
    rw [hfree g hg]
    rfl
  unfold HandlerTable.registered
  rw [hslots, List.filterMap_append, List.filterMap_eq_nil_iff.mpr hnone, List.append_nil, List.filterMap_map]
  exact List.filterMap_some

/-- Between two calls the client is where the machine is, and owes no answer. -/
def Between (w : World ω η) : Prop := ∃ s, Follows w s ∧ s.Free

theorem perform_spec (hE : E.Quiet) (charSigned : Bool) (call : Call η) (h : Between w) :
    wp Unfinished (call.perform E charSigned rounds) (fun _ => Between) w := by
  obtain ⟨s, hs, hfree⟩ := h
  cases call with
  | connect options =>
    unfold Call.perform
    simp only [wp_bind, wp_pure]
    exact mqttConnect_spec hE hs hfree
  | subscribe topicFilter qos fp =>
    unfold Call.perform
    simp only [wp_bind, wp_pure]
    exact mqttSubscribe_spec hE hs hfree
  | unsubscribe topicFilter =>
    unfold Call.perform
    simp only [wp_bind, wp_pure]
    exact mqttUnsubscribe_spec hE hs hfree
  | publish topicName message =>
    unfold Call.perform
    simp only [wp_bind, wp_pure]
    exact mqttPublish_spec hE hs hfree
  | yield timeoutMs =>
    unfold Call.perform
    simp only [wp_bind, wp_pure]
    exact mqttYield_spec hE hs hfree
  | disconnect =>
    unfold Call.perform
    simp only [wp_bind, wp_pure]
    exact mqttDisconnect_spec hs hfree
  | store p bytes =>
    unfold Call.perform
    simp only [memory, setMemory, wp_bind, wp_of]
    exact ⟨s, hs.frame rfl rfl, hfree⟩

/-- A client after `MQTTClientInit`, with any memory and in any surroundings. -/
def World.init (c : Client η) (commandTimeoutMs : UInt32) (sendbuf sendbufSize readbuf readbufSize : ℕ) (mem : Mem)
    (env : ω) : World ω η :=
  ⟨clientInit c commandTimeoutMs sendbuf sendbufSize readbuf readbufSize, mem, env, []⟩

theorem between_init (c : Client η) (commandTimeoutMs : UInt32) {sendbuf sendbufSize readbuf : ℕ} (readbufSize : ℕ)
    (mem : Mem) (env : ω) (hapart : sendbuf + sendbufSize ≤ readbuf ∨ readbuf + 7 ≤ sendbuf) :
    Between (World.init c commandTimeoutMs sendbuf sendbufSize readbuf readbufSize mem env) := by
  refine ⟨Session.init, ⟨.nil, rfl, rfl, rfl, ⟨_, ?_, (List.nil_append _).symm⟩, rfl, hapart⟩, Session.free_of_idle rfl⟩
  intro h hh
  obtain ⟨g, -, rfl⟩ := List.mem_map.mp hh
  rfl

theorem calls_spec (hE : E.Quiet) (charSigned : Bool) (rounds : ℕ) (calls : List (Call η)) (h : Between w) :
    wp Unfinished (calls.forM (Call.perform E charSigned rounds)) (fun _ => Between) w :=
  wp_forM calls (fun call _ _ hw => perform_spec hE charSigned call hw) h

/-- Whatever the application asks for and whatever the network and the clock do, the events of the client are a run of
the machine, also those of a call that has not returned, when its handlers leave it alone. When the last call has
returned, the machine is where the client is, and nothing is left to be done about the packet that was received
last. -/
theorem calls_run (hE : E.Quiet) (charSigned : Bool) (rounds : ℕ) (c : Client η) (commandTimeoutMs : UInt32)
    (sendbuf sendbufSize readbuf readbufSize : ℕ) (mem : Mem) (env : ω) (calls : List (Call η))
    (hapart : sendbuf + sendbufSize ≤ readbuf ∨ readbuf + 7 ≤ sendbuf) :
    let r := calls.forM (Call.perform E charSigned rounds)
      (World.init c commandTimeoutMs sendbuf sendbufSize readbuf readbufSize mem env)
    ∃ s, Session.Run r.2.log s ∧ (r.1 = some () → s.Free ∧ s.connected = r.2.c.isconnected ∧
      s.pinged = r.2.c.pingOutstanding ∧ s.id = r.2.c.nextPacketid ∧
        s.handlers = r.2.c.messageHandlers.registered) := by
  intro r
  have hbetween := between_init c commandTimeoutMs readbufSize mem env hapart
  obtain ⟨hdone, hstopped⟩ := (calls_spec hE charSigned rounds calls hbetween).run
  cases hr : r.1 with
  | none =>
    obtain ⟨s, hs⟩ := hstopped hr
    exact ⟨s, hs, fun hsome => (Option.some_ne_none _ hsome.symm).elim⟩
  | some _ =>
    obtain ⟨s, hs, hfree⟩ := hdone () hr
    exact ⟨s, hs.run, fun _ => ⟨hfree, hs.connected, hs.pinged, hs.id, hs.registered.symm⟩⟩

/-- A network whose reads are given one by one, that takes what is sent, with a clock that goes by how many reads
are left. -/
def script (clock : ℕ → ℕ) : Env (List (List UInt8)) ℕ where
  time s := (s, clock s.length)
  read s size _ :=
    match s with
    | [] => ([], 0, [])
    | bytes :: rest => (rest, (bytes.take size).length, bytes.take size)
  write s bytes _ := (s, bytes.length)
  handle _ d := pure d
  publishData _ := ⟨0, 0, 0, 0, MQTTString.initializer, 0, 0⟩
  ackData _ := ⟨0, 0, 0⟩
  upper _ := 0
  stored_le s size _ := by
    cases s with
    | nil => exact Nat.zero_le _
    | cons bytes rest => exact List.length_take_le size bytes

theorem script_quiet (clock : ℕ → ℕ) : (script clock).Quiet :=
  ⟨fun _ _ w => ⟨w.env, rfl⟩, fun _ => rfl⟩

/-- A client of the network `script` before it is initialised. -/
def scriptClient : Client ℕ where
  nextPacketid := 0
  commandTimeoutMs := 0
  bufSize := 0
  readbufSize := 0
  buf := 0
  readbuf := 0
  keepAliveInterval := 0
  pingOutstanding := false
  isconnected := false
  messageHandlers := ⟨List.replicate 5 ⟨none, none⟩, rfl⟩
  defaultMessageHandler := none
  pingTimer := Timer.countdownMs 0 0

/-- A connection that is accepted. -/
theorem calls_run_connect :
    let r := [Call.connect none].forM (Call.perform (script fun _ => 0) false 5)
      (World.init scriptClient 1000 100 50 200 50 (fun _ => 0) [[32], [2], [0, 0]])
    r.1 = some () ∧ r.2.c.isconnected = true ∧ ∃ s, Session.Run r.2.log s ∧ s.connected = true := by
  have hrun := calls_run (script_quiet fun _ => 0) false 5 scriptClient 1000 100 50 200 50 (fun _ => 0)
    [[32], [2], [0, 0]] [Call.connect none] (.inl (by decide))
  have hdone : ([Call.connect none].forM (Call.perform (script fun _ => 0) false 5)
      (World.init scriptClient 1000 100 50 200 50 (fun _ => 0) [[32], [2], [0, 0]])).1 = some () := by decide +kernel
  have hconnected : ([Call.connect none].forM (Call.perform (script fun _ => 0) false 5)
      (World.init scriptClient 1000 100 50 200 50 (fun _ => 0) [[32], [2], [0, 0]])).2.c.isconnected = true := by
    decide +kernel
  obtain ⟨s, hs, hend⟩ := hrun
  exact ⟨hdone, hconnected, s, hs, (hend hdone).2.1.trans hconnected⟩

end EmbeddedTemplate.Mqtt
