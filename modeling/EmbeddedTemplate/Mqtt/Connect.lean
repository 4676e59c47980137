import EmbeddedTemplate.Mqtt.Publish

/-! CONNECT and CONNACK packets and those without a body, from `MQTTConnectClient.c` and `MQTTConnectServer.c`. -/
namespace EmbeddedTemplate.Mqtt

open ByteMem

/-- The members of `MQTTPacket_willOptions` that are used. -/
structure WillOptions where
  topicName : MQTTString
  message : MQTTString
  retained : UInt8
  qos : UInt8
deriving DecidableEq, Repr

/-- The members of `MQTTPacket_connectData` that are used. -/
structure ConnectData where
  MQTTVersion : UInt8
  clientID : MQTTString
  keepAliveInterval : UInt16
  cleansession : UInt8
  willFlag : UInt8
  will : WillOptions
  username : MQTTString
  password : MQTTString
deriving DecidableEq, Repr

def ConnectData.initializer : ConnectData where
  MQTTVersion := 4
  clientID := MQTTString.initializer
  keepAliveInterval := 60
  cleansession := 1
  willFlag := 0
  will := ⟨MQTTString.initializer, MQTTString.initializer, 0, 0⟩
  username := MQTTString.initializer
  password := MQTTString.initializer

/-- `MQTTConnectFlags` with all of its bit-fields assigned. -/
def MQTTConnectFlags.ofBits (cleansession : UInt8) (will : Bool) (willQoS willRetain : UInt8)
    (password username : Bool) : UInt8 :=
  UInt8.ofNat (cleansession.toNat % 2 * 2 + will.toNat * 4 + willQoS.toNat % 4 * 8 +
    willRetain.toNat % 2 * 32 + password.toNat * 64 + username.toNat * 128)

def MQTTConnectFlags.cleansession (all : UInt8) : ℕ := all.toNat / 2 % 2
def MQTTConnectFlags.will (all : UInt8) : ℕ := all.toNat / 4 % 2
def MQTTConnectFlags.willQoS (all : UInt8) : ℕ := all.toNat / 8 % 4
def MQTTConnectFlags.willRetain (all : UInt8) : ℕ := all.toNat / 32 % 2
def MQTTConnectFlags.password (all : UInt8) : ℕ := all.toNat / 64 % 2
def MQTTConnectFlags.username (all : UInt8) : ℕ := all.toNat / 128

/-- `s.cstring || s.lenstring.data`. -/
def MQTTString.present (s : MQTTString) : Bool := s.cstring.isSome || s.lenstring.data != 0

/-- `"MQTT"`. -/
def mqttName : List UInt8 := [77, 81, 84, 84]

/-- `"MQIsdp"`. -/
def mqIsdpName : List UInt8 := [77, 81, 73, 115, 100, 112]

def serializeConnectLength (options : ConnectData) : ℤ :=
  let len := if options.MQTTVersion = 3 then 12 else if options.MQTTVersion = 4 then 10 else 0
  let len := len + (strlen options.clientID + 2)
  let len := if options.willFlag ≠ 0 then
    len + (strlen options.will.topicName + 2 + strlen options.will.message + 2) else len
  let len := if options.username.present then len + (strlen options.username + 2) else len
  if options.password.present then len + (strlen options.password + 2) else len

/-- The flags that `MQTTSerialize_connect` writes. -/
def connectFlags (options : ConnectData) : UInt8 :=
  let will := decide (options.willFlag ≠ 0)
  MQTTConnectFlags.ofBits options.cleansession will (if will then options.will.qos else 0)
    (if will then options.will.retained else 0) options.password.present options.username.present

def serializeConnect (m : Mem) (buf : ℕ) (buflen : ℤ) (options : ConnectData) : Mem × ℤ :=
  let len := serializeConnectLength options
  if buflen < packetLen len then (m, bufferTooShort)
  else
    let w := writeChar (m, buf) (MQTTHeader.ofBits connect 0 0 0)
    let w := writeEncoded w len
    let w := if options.MQTTVersion = 4 then writeChar (writeCString w mqttName) 4
      else writeChar (writeCString w mqIsdpName) 3
    let w := writeChar w (connectFlags options)
    let w := writeInt w options.keepAliveInterval.toNat
    let w := writeMQTTString w options.clientID
    let w := if options.willFlag ≠ 0 then
      writeMQTTString (writeMQTTString w options.will.topicName) options.will.message else w
    let w := if options.username.present then writeMQTTString w options.username else w
    let w := if options.password.present then writeMQTTString w options.password else w
    written buf w

def packetCheckVersion (m : Mem) (protocol : MQTTString) (version : UInt8) : Bool :=
  let n := protocol.lenstring.len.toNat
  let begins (name : List UInt8) : Bool :=
    read m protocol.lenstring.data (min name.length n) == name.take (min name.length n)
  version == 3 && begins mqIsdpName || version == 4 && begins mqttName

/-- The part of `MQTTDeserialize_connect` behind the will. -/
def deserializeCredentials (m : Mem) (data : ConnectData) (flags : UInt8) (curdata enddata : ℕ) :
    ℤ × ConnectData :=
  if MQTTConnectFlags.username flags ≠ 0 then
    if (enddata : ℤ) - curdata < 3 then (0, data)
    else
      let u := readMQTTLenString m data.username curdata enddata
      let data := { data with username := u.2.1 }
      if u.1 = false then (0, data)
      else if MQTTConnectFlags.password flags ≠ 0 then
        if (enddata : ℤ) - u.2.2 < 3 then (0, data)
        else
          let p := readMQTTLenString m data.password u.2.2 enddata
          let data := { data with password := p.2.1 }
          if p.1 = false then (0, data) else (1, data)
      else (1, data)
  else if MQTTConnectFlags.password flags ≠ 0 then (0, data)
  else (1, data)

/-- The part of `MQTTDeserialize_connect` behind the client identifier. -/
def deserializeWill (m : Mem) (data : ConnectData) (flags : UInt8) (curdata enddata : ℕ) : ℤ × ConnectData :=
  let data := { data with willFlag := UInt8.ofNat (MQTTConnectFlags.will flags) }
  if MQTTConnectFlags.will flags ≠ 0 then
    let topic := readMQTTLenString m data.will.topicName curdata enddata
    let data := { data with will := { data.will with
      qos := UInt8.ofNat (MQTTConnectFlags.willQoS flags)
      retained := UInt8.ofNat (MQTTConnectFlags.willRetain flags)
      topicName := topic.2.1 } }
    if topic.1 = false then (0, data)
    else
      let message := readMQTTLenString m data.will.message topic.2.2 enddata
      let data := { data with will := { data.will with message := message.2.1 } }
      if message.1 = false then (0, data)
      else deserializeCredentials m data flags message.2.2 enddata
  else deserializeCredentials m data flags curdata enddata

/-- `MQTTDeserialize_connect`. The version is not stored. -/
def deserializeConnect (m : Mem) (data : ConnectData) (buf len : ℕ) : ℤ × ConnectData :=
  let enddata := buf + len
  let header := readChar m buf
  if MQTTHeader.type header.1 ≠ connect then (0, data)
  else
    let curdata := header.2 + (packetDecodeBuf m header.2).1
    let protocol := readMQTTLenString m MQTTString.initializer curdata enddata
    if protocol.1 = false ∨ (enddata : ℤ) - protocol.2.2 < 0 then (0, data)
    else
      let version := readChar m protocol.2.2
      if packetCheckVersion m protocol.2.1 version.1 = false then (0, data)
      else
        let flags := readChar m version.2
        let keepAlive := readInt m flags.2
        let id := readMQTTLenString m data.clientID keepAlive.2 enddata
        let data := { data with
          cleansession := UInt8.ofNat (MQTTConnectFlags.cleansession flags.1)
          keepAliveInterval := UInt16.ofNat keepAlive.1
          clientID := id.2.1 }
        if id.1 = false then (0, data) else deserializeWill m data flags.1 id.2.2 enddata

/-- `MQTTSerialize_connack`. Four bytes are written, for which the length of the buffer is not asked. -/
def serializeConnack (m : Mem) (buf : ℕ) (buflen : ℤ) (connackRc sessionPresent : UInt8) : Mem × ℤ :=
  if buflen < 2 then (m, bufferTooShort)
  else
    let w := writeChar (m, buf) (MQTTHeader.ofBits connack 0 0 0)
    let w := writeEncoded w 2
    let w := writeChar w (UInt8.ofNat (sessionPresent.toNat % 2 * 128))
    let w := writeChar w connackRc
    written buf w

/-- `MQTTDeserialize_connack`. Returns the session flag and the return code as well. -/
def deserializeConnack (m : Mem) (sessionPresent connackRc : UInt8) (buf : ℕ) : ℤ × UInt8 × UInt8 :=
  let header := readChar m buf
  if MQTTHeader.type header.1 ≠ connack then (0, sessionPresent, connackRc)
  else
    let r := packetDecodeBuf m header.2
    let curdata := header.2 + r.1
    let enddata := curdata + r.2
    if (enddata : ℤ) - curdata < 2 then (r.1, sessionPresent, connackRc)
    else
      let flags := readChar m curdata
      (1, UInt8.ofNat (flags.1.toNat / 128), (readChar m flags.2).1)

def serializeZero (m : Mem) (buf : ℕ) (buflen : ℤ) (packettype : ℕ) : Mem × ℤ :=
  if buflen < 2 then (m, bufferTooShort)
  else written buf (writeEncoded (writeChar (m, buf) (MQTTHeader.ofBits packettype 0 0 0)) 0)

def serializeDisconnect (m : Mem) (buf : ℕ) (buflen : ℤ) : Mem × ℤ := serializeZero m buf buflen disconnect

def serializePingreq (m : Mem) (buf : ℕ) (buflen : ℤ) : Mem × ℤ := serializeZero m buf buflen pingreq

def ConnectData.strings (options : ConnectData) : List MQTTString :=
  options.clientID ::
    ((if options.willFlag ≠ 0 then [options.will.topicName, options.will.message] else []) ++
      ((if options.username.present then [options.username] else []) ++
        (if options.password.present then [options.password] else [])))

def connectFixed (version flags : UInt8) (keepAlive : UInt16) : List UInt8 :=
  lenString (if version = 4 then mqttName else mqIsdpName) ++
    [if version = 4 then 4 else 3, flags] ++ int16 keepAlive.toNat

def connectBody (version flags : UInt8) (keepAlive : UInt16) (strings : List (List UInt8)) : List UInt8 :=
  connectFixed version flags keepAlive ++ lenStrings strings

variable {m m' : Mem} {buf p size : ℕ} {buflen : ℤ} {options : ConnectData}

theorem serializeConnectLength_sum (options : ConnectData) : serializeConnectLength options =
    (if options.MQTTVersion = 3 then 12 else if options.MQTTVersion = 4 then 10 else 0) +
      (options.strings.map fun s => strlen s + 2).sum := by
  unfold serializeConnectLength ConnectData.strings
  dsimp only
  generalize (if options.MQTTVersion = 3 then 12 else if options.MQTTVersion = 4 then 10 else 0 : ℤ) = fixed
  split_ifs
  all_goals
    simp only [List.map_cons, List.map_append, List.map_nil, List.sum_cons, List.sum_append, List.sum_nil]
    omega

theorem serializeConnectLength_eq (hversion : options.MQTTVersion = 3 ∨ options.MQTTVersion = 4)
    (hsrc : Sources buf size options.strings) (m : Mem) :
    serializeConnectLength options = (connectBody options.MQTTVersion (connectFlags options)
      options.keepAliveInterval (options.strings.map (·.chars m))).length := by
  have hfixed : ((connectFixed options.MQTTVersion (connectFlags options) options.keepAliveInterval).length : ℤ) =
      if options.MQTTVersion = 3 then 12 else if options.MQTTVersion = 4 then 10 else 0 := by
    rcases hversion with h | h
    all_goals
      rw [h]
      rfl
  rw [serializeConnectLength_sum, connectBody, List.length_append, Nat.cast_add, sum_strlen hsrc m, hfixed]

theorem foldl_strings (options : ConnectData) (w : Cursor) :
    options.strings.foldl writeMQTTString w =
      let w := writeMQTTString w options.clientID
      let w := if options.willFlag ≠ 0 then
        writeMQTTString (writeMQTTString w options.will.topicName) options.will.message else w
      let w := if options.username.present then writeMQTTString w options.username else w
      if options.password.present then writeMQTTString w options.password else w := by
  unfold ConnectData.strings
  rw [List.foldl_cons, List.foldl_append, List.foldl_append]
  dsimp only
  split_ifs
  all_goals rfl

theorem serializeConnect_eq {body packet : List UInt8}
    (hversion : options.MQTTVersion = 3 ∨ options.MQTTVersion = 4)
    (hbody : body = connectBody options.MQTTVersion (connectFlags options) options.keepAliveInterval
      (options.strings.map (·.chars m)))
    (hpacket : packet = Base128.frame (MQTTHeader.ofBits connect 0 0 0) body)
    (hsrc : Sources buf packet.length options.strings) :
    serializeConnect m buf buflen options =
      if buflen < packetLen body.length then (m, bufferTooShort)
      else (write m buf packet, packet.length) := by
  have hlen : serializeConnectLength options = body.length := by
    rw [hbody]
    exact serializeConnectLength_eq hversion hsrc m
  have hname : ∀ w : Cursor, (if options.MQTTVersion = 4 then writeChar (writeCString w mqttName) 4
      else writeChar (writeCString w mqIsdpName) 3) =
      emit w (lenString (if options.MQTTVersion = 4 then mqttName else mqIsdpName) ++
        [if options.MQTTVersion = 4 then 4 else 3]) := by
    intro w
    split_ifs
    all_goals rw [writeCString_eq, writeChar_eq, emit_emit]
  have hframe : packet = MQTTHeader.ofBits connect 0 0 0 :: Base128.encode body.length ++
      connectFixed options.MQTTVersion (connectFlags options) options.keepAliveInterval ++
        lenStrings (options.strings.map (·.chars m)) := by
    rw [hpacket, Base128.frame, hbody, connectBody, List.append_assoc]
    rfl
  have hsize := (congrArg List.length hframe).ge
  rw [List.length_append] at hsize
  have hstrings := foldl_writeMQTTString hsrc hsize
  rw [foldl_strings, ← hframe] at hstrings
  have hfixed : ∀ bs, emit (emit (emit (emit (m, buf) bs)
      (lenString (if options.MQTTVersion = 4 then mqttName else mqIsdpName) ++
        [if options.MQTTVersion = 4 then 4 else 3])) [connectFlags options])
      (int16 options.keepAliveInterval.toNat) =
      emit (m, buf) (bs ++ connectFixed options.MQTTVersion (connectFlags options)
        options.keepAliveInterval) := by
    intro bs
    simp only [emit_emit, connectFixed, List.append_assoc, List.cons_append, List.nil_append]
  unfold serializeConnect
  simp only [hlen, writeHeader_eq, hname]
  simp only [writeChar_eq, writeInt_eq, hfixed]
  dsimp only at hstrings
  rw [hstrings, written_emit]

theorem serializes_connect {body : List UInt8} (hversion : options.MQTTVersion = 3 ∨ options.MQTTVersion = 4)
    (hsrc : Sources buf buflen.toNat options.strings)
    (hbody : body = connectBody options.MQTTVersion (connectFlags options) options.keepAliveInterval
      (options.strings.map (·.chars m))) (hlen : body.length < 128 ^ 4) :
    Serializes m buf buflen (MQTTHeader.ofBits connect 0 0 0) body (serializeConnect m buf buflen options) := by
  have hlength : serializeConnectLength options = body.length := by
    rw [hbody]
    exact serializeConnectLength_eq hversion hsrc m
  by_cases hshort : buflen < packetLen body.length
  · unfold serializeConnect Serializes
    rw [hlength, if_pos hshort, if_pos hshort]
  · have hsize := length_frame_le_packetLen (MQTTHeader.ofBits connect 0 0 0) hlen
    exact serializeConnect_eq hversion hbody rfl (hsrc.mono (by omega))

theorem after_writeInt (w : Cursor) (anInt : ℤ) : After w (writeInt w anInt) := ⟨[_, _], rfl⟩

theorem after_writeCString (w : Cursor) (string : List UInt8) : After w (writeCString w string) := by
  rw [writeCString_eq]
  exact .emit w _

theorem after_writeMQTTString (w : Cursor) (s : MQTTString) : After w (writeMQTTString w s) := by
  have hcopy : ∀ (v : Cursor) (src n : ℕ), After v (copyBytes v src n) :=
    fun v src n => ⟨read v.1 src n, by simp [copyBytes, emit]⟩
  unfold writeMQTTString
  apply After.ite
  · exact (after_writeInt w _).trans (hcopy _ _ _)
  · cases s.cstring with
    | some string => exact after_writeCString w string
    | none => exact after_writeInt w 0

/-- Whatever the number is, only bytes from the pointer on are written. -/
theorem after_writeEncoded (w : Cursor) (length : ℤ) : After w (writeEncoded w length) := by
  have hloop : ∀ (m : Mem) (p rc : ℕ) (length : ℤ), ∃ bs,
      encodeLoop m p rc length = (write m (p + rc) bs, rc + bs.length) := by
    intro m p rc length
    fun_induction encodeLoop m p rc length with
    | case1 m rc length d length' d' m' hpos ih =>
      obtain ⟨bs, hbs⟩ := ih
      exact ⟨d' :: bs, by rw [hbs, write, List.length_cons, Nat.add_right_comm, ← Nat.add_assoc]; rfl⟩
    | case2 m rc length d length' d' m' hpos => exact ⟨[d'], rfl⟩
  obtain ⟨bs, hbs⟩ := hloop w.1 w.2 0 length
  refine ⟨bs, ?_⟩
  unfold writeEncoded packetEncode emit
  rw [hbs]
  simp

theorem serializeConnect_sent {options : ConnectData} (hok : 0 < (serializeConnect m buf buflen options).2) :
    ∃ packet, packet.head? = some (MQTTHeader.ofBits connect 0 0 0) ∧
      serializeConnect m buf buflen options = (write m buf packet, (packet.length : ℤ)) := by
  have hneg : ¬ (0 : ℤ) < bufferTooShort := by decide
  have hchar : ∀ (w : Cursor) (c : UInt8), After w (writeChar w c) := fun w c => .emit w [c]
  have hstring := after_writeMQTTString
  have hname : ∀ w : Cursor, After w (if options.MQTTVersion = 4 then writeChar (writeCString w mqttName) 4
      else writeChar (writeCString w mqIsdpName) 3) :=
    fun w => ((after_writeCString w _).trans (hchar _ _)).ite ((after_writeCString w _).trans (hchar _ _))
  unfold serializeConnect at hok ⊢
  by_cases hshort : buflen < packetLen (serializeConnectLength options)
  · rw [if_pos hshort] at hok
    exact absurd hok hneg
  · rw [if_neg hshort]
    dsimp only
    generalize hw : (if options.password.present then _ else _ : Cursor) = w
    have hafter : After (writeChar (m, buf) (MQTTHeader.ofBits connect 0 0 0)) w := by
      rw [← hw]
      apply After.option _ (hstring _ _)
      apply After.option _ (hstring _ _)
      apply After.option _ ((hstring _ _).trans (hstring _ _))
      exact (((((after_writeEncoded _ _).trans (hname _)).trans (hchar _ _)).trans (after_writeInt _ _)).trans
        (hstring _ _))
    obtain ⟨bs, rfl⟩ := hafter
    exact ⟨MQTTHeader.ofBits connect 0 0 0 :: bs, rfl, by rw [writeChar_eq, emit_emit, written_emit]; rfl⟩

theorem snd_writeMQTTString {s : MQTTString} (h : s.Valid) (w : Cursor) :
    ((writeMQTTString w s).2 : ℤ) = w.2 + (strlen s + 2) := by
  have hint : ∀ n : ℤ, (writeInt w n).2 = w.2 + 2 := fun _ => rfl
  obtain ⟨cstring, len, data⟩ := s
  cases cstring with
  | none =>
    have hnonneg : 0 ≤ len := h.nonneg rfl
    simp only [writeMQTTString, copyBytes, strlen]
    split_ifs
    · rw [hint]
      omega
    · rw [hint]
      omega
  | some string =>
    have hpos : ¬ 0 < len := by simpa using h.single
    simp only [writeMQTTString, if_neg hpos, writeCString_eq, emit, length_lenString, strlen]
    omega

theorem snd_foldl_writeMQTTString {ss : List MQTTString} (h : ∀ s ∈ ss, s.Valid) (w : Cursor) :
    ((ss.foldl writeMQTTString w).2 : ℤ) = w.2 + (ss.map fun s => strlen s + 2).sum := by
  induction ss generalizing w with
  | nil => simp
  | cons s ss ih =>
    obtain ⟨hs, hss⟩ := List.forall_mem_cons.mp h
    rw [List.foldl_cons, ih hss, snd_writeMQTTString hs, List.map_cons, List.sum_cons, add_assoc]

/-- With another version than 3 and 4 the name of the protocol and what stands behind it are not counted: more is
written than has been compared with the length of the buffer, and the call succeeds. -/
theorem serializeConnect_overrun (h3 : options.MQTTVersion ≠ 3) (h4 : options.MQTTVersion ≠ 4)
    (hvalid : ∀ s ∈ options.strings, s.Valid) (hlen : serializeConnectLength options < 128 ^ 4)
    (hok : 0 < (serializeConnect m buf buflen options).2) :
    ∃ packet : List UInt8, serializeConnect m buf buflen options = (write m buf packet, (packet.length : ℤ)) ∧
      packetLen (serializeConnectLength options) + 11 ≤ packet.length := by
  obtain ⟨packet, -, hpacket⟩ := serializeConnect_sent hok
  refine ⟨packet, hpacket, ?_⟩
  have hneg : ¬ (0 : ℤ) < bufferTooShort := by decide
  have hsum := serializeConnectLength_sum options
  rw [if_neg h3, if_neg h4, zero_add] at hsum
  obtain ⟨n, hn⟩ : ∃ n : ℕ, serializeConnectLength options = n := by
    apply Int.eq_ofNat_of_zero_le
    rw [hsum]
    apply List.sum_nonneg
    intro x hx
    obtain ⟨s, hs, rfl⟩ := List.mem_map.mp hx
    have hchars := strlen_eq (hvalid s hs) m
    omega
  have hsize : (packet.length : ℤ) = 1 + (Base128.encode n).length + 12 + n := by
    have hsnd := congrArg Prod.snd hpacket
    dsimp only at hsnd
    rw [← hsnd]
    unfold serializeConnect at hok ⊢
    rw [hn] at hsum hok ⊢
    by_cases hshort : buflen < packetLen n
    · rw [if_pos hshort] at hok
      exact absurd hok hneg
    · have hstrings := foldl_strings options
      dsimp only at hstrings
      simp only [if_neg hshort, if_neg h4, ← hstrings, written, snd_foldl_writeMQTTString hvalid, ← hsum]
      simp only [writeChar_eq, writeEncoded_eq, writeCString_eq, writeInt_eq, emit, length_lenString,
        List.length_singleton]
      have htwo : (int16 options.keepAliveInterval.toNat).length = 2 := rfl
      have hname : mqIsdpName.length = 6 := rfl
      omega
  have hcounted := packetLen_eq (n := n) (by exact_mod_cast hn ▸ hlen)
  rw [hsize, hn, hcounted]
  split_ifs
  · omega
  · omega

theorem fields_connectFlags (options : ConnectData) :
    MQTTConnectFlags.cleansession (connectFlags options) = options.cleansession.toNat % 2 ∧
      MQTTConnectFlags.will (connectFlags options) = (decide (options.willFlag ≠ 0)).toNat ∧
      (options.willFlag ≠ 0 →
        MQTTConnectFlags.willQoS (connectFlags options) = options.will.qos.toNat % 4 ∧
          MQTTConnectFlags.willRetain (connectFlags options) = options.will.retained.toNat % 2) ∧
      MQTTConnectFlags.password (connectFlags options) = options.password.present.toNat ∧
      MQTTConnectFlags.username (connectFlags options) = options.username.present.toNat := by
  have hwill := (decide (options.willFlag ≠ 0)).toNat_lt
  have hpass := options.password.present.toNat_lt
  have huser := options.username.present.toNat_lt
  have hbyte : ∀ a b c d e f, a < 2 → b < 2 → c < 4 → d < 2 → e < 2 → f < 2 →
      (UInt8.ofNat (a * 2 + b * 4 + c * 8 + d * 32 + e * 64 + f * 128)).toNat =
        a * 2 + b * 4 + c * 8 + d * 32 + e * 64 + f * 128 := by
    intro a b c d e f ha hb hc hd he hf
    exact Base128.toNat_digit (by omega)
  have hflags := hbyte (options.cleansession.toNat % 2) (decide (options.willFlag ≠ 0)).toNat
    ((if decide (options.willFlag ≠ 0) then options.will.qos else 0).toNat % 4)
    ((if decide (options.willFlag ≠ 0) then options.will.retained else 0).toNat % 2)
    options.password.present.toNat options.username.present.toNat (by omega) hwill (by omega) (by omega)
    hpass huser
  unfold MQTTConnectFlags.cleansession MQTTConnectFlags.will MQTTConnectFlags.willQoS
    MQTTConnectFlags.willRetain MQTTConnectFlags.password MQTTConnectFlags.username connectFlags
    MQTTConnectFlags.ofBits
  dsimp only
  rw [hflags]
  refine ⟨by omega, by omega, ?_, by omega, by omega⟩
  intro h
  rw [if_pos (decide_eq_true h), if_pos (decide_eq_true h)]
  omega

/-- The credentials that are read: each has a character, but a user name in front of a password can be empty. -/
structure CredentialsAccepted (username password : Option (List UInt8)) : Prop where
  named : username = none → password = none
  username : username = some [] → password ≠ none
  password : password ≠ some []

instance (username password : Option (List UInt8)) : Decidable (CredentialsAccepted username password) :=
  decidable_of_iff ((username = none → password = none) ∧ (username = some [] → password ≠ none) ∧
    password ≠ some []) ⟨fun h => ⟨h.1, h.2.1, h.2.2⟩, fun h => ⟨h.1, h.2, h.3⟩⟩

/-- The credentials have been read, and nothing else has changed. -/
structure CredentialsRead (m : Mem) (data : ConnectData) (username password : Option (List UInt8))
    (r : ℤ × ConnectData) : Prop where
  accepted : r.1 = 1 ↔ CredentialsAccepted username password
  frame : r.2 = { data with username := r.2.username, password := r.2.password }
  chars : r.1 = 1 → (∀ s ∈ username, r.2.username.chars m = s) ∧ ∀ s ∈ password, r.2.password.chars m = s

section Credentials
variable {flags : UInt8} {name word : List UInt8} {q enddata : ℕ}

theorem deserializeCredentials_none (password : Option (List UInt8)) (huser : MQTTConnectFlags.username flags = 0)
    (hpass : MQTTConnectFlags.password flags = password.isSome.toNat) (data : ConnectData) :
    CredentialsRead m data none password (deserializeCredentials m data flags q enddata) := by
  unfold deserializeCredentials
  cases password with
  | none =>
    rw [Option.isSome_none, Bool.toNat_false] at hpass
    simp only [huser, hpass, ne_eq, not_true_eq_false, if_false]
    exact ⟨⟨fun _ => ⟨fun _ => rfl, by simp, by simp⟩, fun _ => rfl⟩, rfl, by simp⟩
  | some password =>
    rw [Option.isSome_some, Bool.toNat_true] at hpass
    simp only [huser, hpass, ne_eq, not_true_eq_false, if_false, one_ne_zero, not_false_eq_true, if_true]
    refine ⟨⟨by simp, fun hacc => ?_⟩, rfl, by simp⟩
    exact absurd (hacc.named rfl) (Option.some_ne_none password)

/-- A user name alone has to have a character. -/
theorem deserializeCredentials_name (huser : MQTTConnectFlags.username flags = 1)
    (hpass : MQTTConnectFlags.password flags = 0) (hlen : name.length < 2 ^ 16) (h : Holds m q (lenString name))
    (hend : enddata = q + (lenString name).length) (data : ConnectData) :
    CredentialsRead m data (some name) none (deserializeCredentials m data flags q enddata) := by
  have hread : ∀ s : MQTTString, readMQTTLenString m s q enddata = _ :=
    fun s => readMQTTLenString_of_holds hlen h hend.ge
  have hsize := length_lenString name
  unfold deserializeCredentials
  simp only [huser, hpass, ne_eq, not_true_eq_false, if_false, one_ne_zero, not_false_eq_true, if_true, hread,
    Bool.true_eq_false]
  rcases eq_or_ne name [] with rfl | hne
  · have hshort : (enddata : ℤ) - q < 3 := by
      rw [hend, hsize]
      simp
    rw [if_pos hshort]
    exact ⟨⟨by simp, fun hacc => absurd rfl (hacc.username rfl)⟩, rfl, by simp⟩
  · have hroom : ¬ (enddata : ℤ) - q < 3 := by
      have hpos := List.length_pos_iff.mpr hne
      omega
    rw [if_neg hroom]
    refine ⟨⟨fun _ => ⟨by simp, by simp [hne], by simp⟩, fun _ => rfl⟩, rfl, fun _ => ?_⟩
    simpa using chars_of_holds h

/-- Behind a user name the password has to have a character. -/
theorem deserializeCredentials_both (huser : MQTTConnectFlags.username flags = 1)
    (hpass : MQTTConnectFlags.password flags = 1) (hname : name.length < 2 ^ 16) (hword : word.length < 2 ^ 16)
    (h : Holds m q (lenString name ++ lenString word))
    (hend : enddata = q + ((lenString name).length + (lenString word).length)) (data : ConnectData) :
    CredentialsRead m data (some name) (some word) (deserializeCredentials m data flags q enddata) := by
  obtain ⟨hnameHolds, hwordHolds⟩ := holds_append.mp h
  have hnameRead : ∀ s : MQTTString, readMQTTLenString m s q enddata = _ :=
    fun s => readMQTTLenString_of_holds hname hnameHolds (by omega)
  have hwordRead : ∀ s : MQTTString, readMQTTLenString m s _ enddata = _ :=
    fun s => readMQTTLenString_of_holds hword hwordHolds (by omega)
  have hnameLen := length_lenString name
  have hwordLen := length_lenString word
  have hroom : ¬ (enddata : ℤ) - q < 3 := by omega
  unfold deserializeCredentials
  simp only [huser, hpass, ne_eq, if_false, one_ne_zero, not_false_eq_true, if_true, hnameRead, hwordRead,
    Bool.true_eq_false, hroom]
  rcases eq_or_ne word [] with rfl | hne
  · have hshort : (enddata : ℤ) - (q + (lenString name).length : ℕ) < 3 := by
      rw [hend, hwordLen]
      simp
    rw [if_pos hshort]
    exact ⟨⟨by simp, fun hacc => absurd rfl hacc.password⟩, rfl, by simp⟩
  · have hrest : ¬ (enddata : ℤ) - (q + (lenString name).length : ℕ) < 3 := by
      have hpos := List.length_pos_iff.mpr hne
      omega
    rw [if_neg hrest]
    refine ⟨⟨fun _ => ⟨by simp, by simp, by simp [hne]⟩, fun _ => rfl⟩, rfl, fun _ => ?_⟩
    simpa using ⟨chars_of_holds hnameHolds, chars_of_holds hwordHolds⟩

theorem deserializeCredentials_of_holds {username password : Option (List UInt8)}
    (huser : MQTTConnectFlags.username flags = username.isSome.toNat)
    (hpass : MQTTConnectFlags.password flags = password.isSome.toNat)
    (hlen : ∀ s ∈ username.toList ++ password.toList, s.length < 2 ^ 16)
    (h : Holds m q (lenStrings (username.toList ++ password.toList)))
    (hend : enddata = q + (lenStrings (username.toList ++ password.toList)).length) (data : ConnectData) :
    CredentialsRead m data username password (deserializeCredentials m data flags q enddata) := by
  cases username with
  | none => exact deserializeCredentials_none password huser hpass data
  | some name =>
    cases password with
    | none =>
      simp only [Option.toList_some, Option.toList_none, List.append_nil, lenStrings, List.flatMap_singleton]
        at h hend
      exact deserializeCredentials_name huser hpass (hlen name (by simp)) h hend data
    | some word =>
      simp only [Option.toList_some, lenStrings, List.flatMap_append, List.flatMap_singleton, List.length_append]
        at h hend
      exact deserializeCredentials_both huser hpass (hlen name (by simp)) (hlen word (by simp)) h hend data

def optionStrings (will : Option (List UInt8 × List UInt8)) (username password : Option (List UInt8)) :
    List (List UInt8) :=
  (will.elim [] fun w => [w.1, w.2]) ++ (username.toList ++ password.toList)

/-- The will and the credentials have been read, and nothing else has changed. -/
structure OptionsRead (m : Mem) (data : ConnectData) (flags : UInt8) (will : Option (List UInt8 × List UInt8))
    (username password : Option (List UInt8)) (r : ℤ × ConnectData) : Prop where
  accepted : r.1 = 1 ↔ CredentialsAccepted username password
  frame : r.2 = { data with
    willFlag := r.2.willFlag, will := r.2.will, username := r.2.username, password := r.2.password }
  willFlag : r.2.willFlag = UInt8.ofNat will.isSome.toNat
  will : ∀ w ∈ will, r.2.will.topicName.chars m = w.1 ∧ r.2.will.message.chars m = w.2 ∧
    r.2.will.qos = UInt8.ofNat (MQTTConnectFlags.willQoS flags) ∧
    r.2.will.retained = UInt8.ofNat (MQTTConnectFlags.willRetain flags)
  chars : r.1 = 1 → (∀ s ∈ username, r.2.username.chars m = s) ∧ ∀ s ∈ password, r.2.password.chars m = s

theorem deserializeWill_of_holds {will : Option (List UInt8 × List UInt8)} {username password : Option (List UInt8)}
    (hwill : MQTTConnectFlags.will flags = will.isSome.toNat)
    (huser : MQTTConnectFlags.username flags = username.isSome.toNat)
    (hpass : MQTTConnectFlags.password flags = password.isSome.toNat)
    (hlen : ∀ s ∈ optionStrings will username password, s.length < 2 ^ 16)
    (h : Holds m q (lenStrings (optionStrings will username password)))
    (hend : enddata = q + (lenStrings (optionStrings will username password)).length) (data : ConnectData) :
    OptionsRead m data flags will username password (deserializeWill m data flags q enddata) := by
  have hcredLen : ∀ s ∈ username.toList ++ password.toList, s.length < 2 ^ 16 :=
    fun s hs => hlen s (List.mem_append_right _ hs)
  unfold deserializeWill
  cases will with
  | none =>
    simp only [optionStrings, Option.elim_none, List.nil_append] at h hend
    have hcred := deserializeCredentials_of_holds huser hpass hcredLen h hend
    simp only [hwill, Option.isSome_none, Bool.toNat_false, ne_eq, not_true_eq_false, if_false]
    obtain ⟨hacc, hframe, hchars⟩ := hcred { data with willFlag := UInt8.ofNat 0 }
    refine ⟨hacc, ?_, ?_, by simp, hchars⟩
    all_goals rw [hframe]
    rfl
  | some w =>
    simp only [optionStrings, Option.elim_some, lenStrings, List.flatMap_append, List.flatMap_cons,
      List.flatMap_nil, List.append_nil, List.append_assoc] at h
    simp only [optionStrings, Option.elim_some, lenStrings, List.flatMap_append, List.flatMap_cons,
      List.flatMap_nil, List.append_nil, List.length_append] at hend
    obtain ⟨htopicHolds, hrest⟩ := holds_append.mp h
    obtain ⟨hmessageHolds, hcredHolds⟩ := holds_append.mp hrest
    have htopic : ∀ s : MQTTString, readMQTTLenString m s q enddata = _ :=
      fun s => readMQTTLenString_of_holds (hlen w.1 (by simp [optionStrings])) htopicHolds (by omega)
    have hmessage : ∀ s : MQTTString, readMQTTLenString m s _ enddata = _ :=
      fun s => readMQTTLenString_of_holds (hlen w.2 (by simp [optionStrings])) hmessageHolds (by omega)
    have hstop : enddata = q + (lenString w.1).length + (lenString w.2).length +
        (lenStrings (username.toList ++ password.toList)).length := by
      simp only [lenStrings, List.flatMap_append, List.length_append]
      omega
    rw [← List.flatMap_append] at hcredHolds
    have hcred := deserializeCredentials_of_holds huser hpass hcredLen hcredHolds hstop
    simp only [hwill, Option.isSome_some, Bool.toNat_true, ne_eq, one_ne_zero, not_false_eq_true, if_true, htopic,
      hmessage, Bool.true_eq_false, if_false]
    obtain ⟨hacc, hframe, hchars⟩ := hcred { data with
      willFlag := UInt8.ofNat 1
      will := ⟨⟨none, ⟨w.1.length, _⟩⟩, ⟨none, ⟨w.2.length, _⟩⟩,
        UInt8.ofNat (MQTTConnectFlags.willRetain flags), UInt8.ofNat (MQTTConnectFlags.willQoS flags)⟩ }
    refine ⟨hacc, ?_, ?_, ?_, hchars⟩
    all_goals rw [hframe]
    · rfl
    · intro w' hw'
      cases hw'
      exact ⟨chars_of_holds htopicHolds, chars_of_holds hmessageHolds, rfl, rfl⟩

end Credentials

def connectStrings (client : List UInt8) (will : Option (List UInt8 × List UInt8))
    (username password : Option (List UInt8)) : List (List UInt8) :=
  client :: optionStrings will username password

theorem packetCheckVersion_of_holds {version : UInt8} {name : List UInt8} {q : ℕ}
    (hname : version = 3 ∧ name = mqIsdpName ∨ version = 4 ∧ name = mqttName)
    (h : Holds m q name) : packetCheckVersion m ⟨none, ⟨name.length, q⟩⟩ version = true := by
  have hread := h.read_eq
  unfold packetCheckVersion
  rcases hname with ⟨rfl, rfl⟩ | ⟨rfl, rfl⟩
  · simp only [Int.toNat_natCast, min_self, hread, List.take_length]
    rfl
  · simp only [Int.toNat_natCast, min_self, hread, List.take_length]
    simp

theorem connectFixed_eq {version : UInt8} (hversion : version = 3 ∨ version = 4) (flags : UInt8)
    (keepAlive : UInt16) :
    ∃ name, (version = 3 ∧ name = mqIsdpName ∨ version = 4 ∧ name = mqttName) ∧ name.length < 2 ^ 16 ∧
      connectFixed version flags keepAlive = lenString name ++ (version :: flags :: int16 keepAlive.toNat) := by
  rcases hversion with rfl | rfl
  · exact ⟨mqIsdpName, .inl ⟨rfl, rfl⟩, by decide, rfl⟩
  · exact ⟨mqttName, .inr ⟨rfl, rfl⟩, by decide, rfl⟩

/-- The fields of the fixed part and the client identifier are read, and then the rest. -/
theorem deserializeConnect_front {version flags : UInt8} {keepAlive : UInt16} {client : List UInt8}
    {rest : List (List UInt8)} {body : List UInt8} (hversion : version = 3 ∨ version = 4)
    (hclientLen : client.length < 2 ^ 16) (hbody : body.length < 128 ^ 4)
    (hbodyEq : body = connectBody version flags keepAlive (client :: rest))
    (h : Holds m p (Base128.frame (MQTTHeader.ofBits connect 0 0 0) body)) :
    ∃ c, Holds m c (lenString client) ∧ Holds m (c + (lenString client).length) (lenStrings rest) ∧
      ∀ data, deserializeConnect m data p (Base128.frame (MQTTHeader.ofBits connect 0 0 0) body).length =
        deserializeWill m { data with
          cleansession := UInt8.ofNat (MQTTConnectFlags.cleansession flags)
          keepAliveInterval := keepAlive
          clientID := ⟨none, ⟨client.length, c + 2⟩⟩ } flags (c + (lenString client).length)
          (c + (lenString client).length + (lenStrings rest).length) := by
  obtain ⟨hheader, hlength, hbodyHolds⟩ := holds_frame h
  have hdecode := packetDecodeBuf_of_holds hbody hlength
  obtain ⟨q, hq⟩ : ∃ q, q = p + 1 + (Base128.encode body.length).length := ⟨_, rfl⟩
  rw [← hq] at hbodyHolds
  have hend : p + (Base128.frame (MQTTHeader.ofBits connect 0 0 0) body).length = q + body.length := by
    rw [hq, Base128.frame, List.length_cons, List.length_append]
    omega
  obtain ⟨name, hname, hnameLen, hfixed⟩ := connectFixed_eq hversion flags keepAlive
  -- where the fields are
  have hlayout : body = lenString name ++
      (version :: flags :: (int16 keepAlive.toNat ++ (lenString client ++ lenStrings rest))) := by
    rw [hbodyEq, connectBody, hfixed, lenStrings_cons]
    simp
  have hsize := congrArg List.length hlayout
  simp only [List.length_append, List.length_cons] at hsize
  rw [hlayout] at hbodyHolds
  obtain ⟨hnameHolds, hrest⟩ := holds_append.mp hbodyHolds
  obtain ⟨hv, hflags, hrest⟩ := hrest
  obtain ⟨hkeep, hstringsHolds⟩ := holds_append.mp hrest
  have htwo : (int16 keepAlive.toNat).length = 2 := rfl
  obtain ⟨c, hc⟩ : ∃ c, c = q + (lenString name).length + 1 + 1 + 2 := ⟨_, rfl⟩
  rw [htwo, ← hc] at hstringsHolds
  obtain ⟨hclientHolds, htailHolds⟩ := holds_append.mp hstringsHolds
  have hstop : q + body.length = c + (lenString client).length + (lenStrings rest).length := by omega
  rw [hstop] at hend
  have hprotocol : ∀ s : MQTTString, readMQTTLenString m s q (c + (lenString client).length +
      (lenStrings rest).length) = _ := fun s => readMQTTLenString_of_holds hnameLen hnameHolds (by omega)
  have hcheck : packetCheckVersion m ⟨none, ⟨name.length, q + 2⟩⟩ version = true :=
    packetCheckVersion_of_holds hname (holds_append.mp hnameHolds).2
  have hkeepInt := readInt_of_holds keepAlive.toNat_lt hkeep
  rw [← hc] at hkeepInt
  have hclient : ∀ s : MQTTString, readMQTTLenString m s c (c + (lenString client).length +
      (lenStrings rest).length) = _ := fun s => readMQTTLenString_of_holds hclientLen hclientHolds (by omega)
  have hinside : ¬ ((c + (lenString client).length + (lenStrings rest).length : ℕ) : ℤ) -
      (q + (lenString name).length : ℕ) < 0 := by omega
  have htype : MQTTHeader.type (m p) = connect := by
    rw [hheader, MQTTHeader.type_ofBits]
    rfl
  refine ⟨c, hclientHolds, htailHolds, fun data => ?_⟩
  unfold deserializeConnect
  simp only [readChar, htype, hdecode, ← hq, hend, hprotocol, hinside, hv, hcheck, hflags, hkeepInt, hclient,
    ne_eq, not_true_eq_false, if_false, Bool.true_eq_false, or_self, UInt16.ofNat_toNat]

theorem deserializeConnect_of_holds {version flags : UInt8} {keepAlive : UInt16} {client : List UInt8}
    {will : Option (List UInt8 × List UInt8)} {username password : Option (List UInt8)}
    (hversion : version = 3 ∨ version = 4)
    (hwill : MQTTConnectFlags.will flags = will.isSome.toNat)
    (huser : MQTTConnectFlags.username flags = username.isSome.toNat)
    (hpass : MQTTConnectFlags.password flags = password.isSome.toNat)
    (hlen : ∀ s ∈ connectStrings client will username password, s.length < 2 ^ 16)
    (hbody : (connectBody version flags keepAlive
      (connectStrings client will username password)).length < 128 ^ 4)
    (h : Holds m p (Base128.frame (MQTTHeader.ofBits connect 0 0 0) (connectBody version flags keepAlive
      (connectStrings client will username password)))) (data : ConnectData) :
    let r := deserializeConnect m data p (Base128.frame (MQTTHeader.ofBits connect 0 0 0)
      (connectBody version flags keepAlive (connectStrings client will username password))).length
    (r.1 = 1 ↔ CredentialsAccepted username password) ∧
      r.2.cleansession = UInt8.ofNat (MQTTConnectFlags.cleansession flags) ∧
      r.2.keepAliveInterval = keepAlive ∧ r.2.clientID.chars m = client ∧
      r.2.willFlag = UInt8.ofNat will.isSome.toNat ∧
      (∀ w ∈ will, r.2.will.topicName.chars m = w.1 ∧ r.2.will.message.chars m = w.2 ∧
        r.2.will.qos = UInt8.ofNat (MQTTConnectFlags.willQoS flags) ∧
        r.2.will.retained = UInt8.ofNat (MQTTConnectFlags.willRetain flags)) ∧
      (r.1 = 1 → (∀ s ∈ username, r.2.username.chars m = s) ∧
        ∀ s ∈ password, r.2.password.chars m = s) := by
  obtain ⟨c, hclientHolds, htailHolds, heq⟩ :=
    deserializeConnect_front hversion (hlen client List.mem_cons_self) hbody rfl h
  have hoptions := deserializeWill_of_holds hwill huser hpass (fun s hs => hlen s (List.mem_cons_of_mem _ hs))
    htailHolds rfl
  dsimp only
  rw [heq]
  obtain ⟨hacc, hframe, hwillFlag, hwillRead, hchars⟩ := hoptions { data with
    cleansession := UInt8.ofNat (MQTTConnectFlags.cleansession flags)
    keepAliveInterval := keepAlive
    clientID := ⟨none, ⟨client.length, c + 2⟩⟩ }
  refine ⟨hacc, ?_, ?_, ?_, hwillFlag, hwillRead, hchars⟩
  all_goals rw [hframe]
  exact chars_of_holds hclientHolds

def MQTTString.given (m : Mem) (s : MQTTString) : Option (List UInt8) :=
  if s.present then some (s.chars m) else none

theorem map_chars_strings (m : Mem) (options : ConnectData) :
    options.strings.map (·.chars m) = connectStrings (options.clientID.chars m)
      (if options.willFlag ≠ 0 then
        some (options.will.topicName.chars m, options.will.message.chars m) else none)
      (options.username.given m) (options.password.given m) := by
  unfold ConnectData.strings connectStrings MQTTString.given
  split_ifs
  all_goals rfl

/-- The packet of `options` fits the buffer and changes nothing outside of it. Once its bytes have reached another
place, it is refused there for the credentials alone, and gives back everything in front of them. -/
def Arrives (m : Mem) (buf : ℕ) (buflen : ℤ) (options : ConnectData) (r : Mem × ℤ) : Prop :=
  r.2 ≤ buflen ∧ (∀ x, x < buf ∨ buf + r.2.toNat ≤ x → r.1 x = m x) ∧
    ∀ m' p d, read m' p r.2.toNat = read r.1 buf r.2.toNat →
      let r' := deserializeConnect m' d p r.2.toNat
      (r'.1 = 1 ↔ CredentialsAccepted (options.username.given m) (options.password.given m)) ∧
        r'.2.cleansession = UInt8.ofNat (options.cleansession.toNat % 2) ∧
        r'.2.keepAliveInterval = options.keepAliveInterval ∧
        r'.2.clientID.chars m' = options.clientID.chars m ∧
        (r'.2.willFlag ≠ 0 ↔ options.willFlag ≠ 0) ∧
        (options.willFlag ≠ 0 → r'.2.will.topicName.chars m' = options.will.topicName.chars m ∧
          r'.2.will.message.chars m' = options.will.message.chars m ∧
          r'.2.will.qos = UInt8.ofNat (options.will.qos.toNat % 4) ∧
          r'.2.will.retained = UInt8.ofNat (options.will.retained.toNat % 2)) ∧
        (r'.1 = 1 → (options.username.present → r'.2.username.chars m' = options.username.chars m) ∧
          (options.password.present → r'.2.password.chars m' = options.password.chars m))

theorem serializeConnect_arrives
    (hversion : options.MQTTVersion = 3 ∨ options.MQTTVersion = 4)
    (hsrc : Sources buf buflen.toNat options.strings)
    (hlen : serializeConnectLength options < 128 ^ 4)
    (hstrings : ∀ s ∈ options.strings, strlen s < 2 ^ 16)
    (hok : 0 < (serializeConnect m buf buflen options).2) :
    Arrives m buf buflen options (serializeConnect m buf buflen options) := by
  obtain ⟨body, hbody⟩ : ∃ body, body = connectBody options.MQTTVersion (connectFlags options)
    options.keepAliveInterval (options.strings.map (·.chars m)) := ⟨_, rfl⟩
  have hlength : serializeConnectLength options = body.length := by
    rw [hbody]
    exact serializeConnectLength_eq hversion hsrc m
  have hbodyLen : body.length < 128 ^ 4 := by
    rw [hlength] at hlen
    exact_mod_cast hlen
  have hserializes := serializes_connect hversion hsrc hbody hbodyLen
  obtain ⟨hfit, hsizeEq, hframe, harrives⟩ := hserializes.sent hbodyLen hok
  refine ⟨hfit, hframe, ?_⟩
  intro m' p d hcopy
  have hholds := harrives m' p hcopy
  rw [hsizeEq]
  have hsent : ∀ s ∈ options.strings.map (·.chars m), s.length < 2 ^ 16 := by
    intro s hs
    obtain ⟨t, ht, rfl⟩ := List.mem_map.mp hs
    have hshort := hstrings t ht
    rw [strlen_eq (hsrc.valid t ht) m] at hshort
    exact_mod_cast hshort
  obtain ⟨hclean, hwill, hwillFields, hpass, huser⟩ := fields_connectFlags options
  rw [map_chars_strings] at hsent hbody
  rw [hbody] at hholds ⊢
  have hgiven : ∀ s : MQTTString, s.present.toNat = (s.given m).isSome.toNat := by
    intro s
    unfold MQTTString.given
    cases s.present
    all_goals rfl
  have hwillSome : (decide (options.willFlag ≠ 0)).toNat =
      (if options.willFlag ≠ 0 then some (options.will.topicName.chars m, options.will.message.chars m)
        else none : Option (List UInt8 × List UInt8)).isSome.toNat := by
    by_cases h : options.willFlag = 0
    all_goals simp [h]
  have hback := deserializeConnect_of_holds hversion (hwill.trans hwillSome) (huser.trans (hgiven _))
    (hpass.trans (hgiven _)) hsent (hbody ▸ hbodyLen) hholds d
  obtain ⟨hiff, hcleanBack, hkeep, hclient, hwillFlag, hwillBack, hcred⟩ := hback
  refine ⟨hiff, hcleanBack.trans (congrArg UInt8.ofNat hclean), hkeep, hclient, ?_, ?_, ?_⟩
  · refine Iff.trans (not_congr (Eq.congr_left hwillFlag)) ?_
    by_cases h : options.willFlag = 0
    all_goals simp [h]
  · intro h
    obtain ⟨htopic, hmessage, hqos, hretain⟩ := hwillBack _ (by rw [if_pos h]; rfl)
    obtain ⟨hwillQoS, hwillRetain⟩ := hwillFields h
    exact ⟨htopic, hmessage, hqos.trans (congrArg UInt8.ofNat hwillQoS),
      hretain.trans (congrArg UInt8.ofNat hwillRetain)⟩
  · intro hone
    obtain ⟨hname, hword⟩ := hcred hone
    constructor
    · intro h
      exact hname _ (if_pos h)
    · intro h
      exact hword _ (if_pos h)

/-- What is serialized with the version 3 or 4 fits the buffer and changes nothing outside of the packet. Once its
bytes have reached another place, it is refused there for the credentials alone, and gives back everything in
front of them. With another version more is written than has been compared with the length of the buffer. -/
theorem deserializeConnect_serializeConnect (hsrc : Sources buf buflen.toNat options.strings)
    (hlen : serializeConnectLength options < 128 ^ 4)
    (hstrings : ∀ s ∈ options.strings, strlen s < 2 ^ 16)
    (hok : 0 < (serializeConnect m buf buflen options).2) :
    let r := serializeConnect m buf buflen options
    (options.MQTTVersion = 3 ∨ options.MQTTVersion = 4 → Arrives m buf buflen options r) ∧
      (options.MQTTVersion ≠ 3 → options.MQTTVersion ≠ 4 → ∃ packet, r = (write m buf packet, (packet.length : ℤ)) ∧
        packetLen (serializeConnectLength options) + 11 ≤ packet.length) :=
  ⟨fun hversion => serializeConnect_arrives hversion hsrc hlen hstrings hok,
    fun h3 h4 => serializeConnect_overrun h3 h4 hsrc.valid hlen hok⟩

/-- The options of `MQTTPacket_connectData_initializer` with the client `a` and the user `b`, and the same with
version 5 in a buffer that ends where the length that is counted does. -/
theorem deserializeConnect_serializeConnect_user :
    let options := { ConnectData.initializer with
      clientID := ⟨some [97], ⟨0, 0⟩⟩
      username := ⟨some [98], ⟨0, 0⟩⟩ }
    let r := serializeConnect (fun _ => 0) 100 40 options
    0 < r.2 ∧ (∀ d, (deserializeConnect r.1 d 100 r.2.toNat).1 = 1 ∧
      (deserializeConnect r.1 d 100 r.2.toNat).2.keepAliveInterval = 60 ∧
      (deserializeConnect r.1 d 100 r.2.toNat).2.clientID.chars r.1 = [97]) ∧
      ∃ packet, serializeConnect (fun _ => 0) 100 8 { options with MQTTVersion := 5 } =
        (write (fun _ => 0) 100 packet, (packet.length : ℤ)) ∧ 8 + 11 ≤ packet.length := by
  intro options r
  have hsrc : Sources 100 (40 : ℤ).toNat options.strings := sources_cstrings (by decide)
  have hok : 0 < (serializeConnect (fun _ => 0) 100 40 options).2 := by decide +kernel
  refine ⟨hok, fun d => ?_, ?_⟩
  · have hboth := deserializeConnect_serializeConnect hsrc (by decide) (by decide) hok
    obtain ⟨-, -, hback⟩ := hboth.1 (.inr rfl)
    obtain ⟨hone, -, hkeep, hclient, -⟩ := hback _ 100 d rfl
    exact ⟨hone.mpr (by decide), hkeep, hclient⟩
  · have hsrc' : Sources 100 (8 : ℤ).toNat { options with MQTTVersion := 5 }.strings :=
      sources_cstrings (by decide)
    have hboth := deserializeConnect_serializeConnect (m := fun _ => 0) hsrc' (by decide) (by decide)
      (by decide +kernel)
    obtain ⟨packet, hpacket, hover⟩ := hboth.2 (by decide) (by decide)
    have hcounted : packetLen (serializeConnectLength { options with MQTTVersion := 5 }) = 8 := by decide
    rw [hcounted] at hover
    exact ⟨packet, hpacket, by omega⟩

end EmbeddedTemplate.Mqtt
