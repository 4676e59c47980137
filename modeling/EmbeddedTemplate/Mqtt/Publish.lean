import EmbeddedTemplate.Mqtt.Packet

/-! PUBLISH packets and acknowledgements, from `MQTTSerializePublish.c` and `MQTTDeserializePublish.c`. A
function that fills variables of its caller takes what they held before. -/
namespace EmbeddedTemplate.Mqtt

open ByteMem

def serializePublishLength (qos : ℤ) (topicName : MQTTString) (payloadlen : ℤ) : ℤ :=
  let len := 2 + strlen topicName + payloadlen
  if 0 < qos then len + 2 else len

def serializePublish (m : Mem) (buf : ℕ) (buflen : ℤ) (dup : UInt8) (qos : ℤ) (retained : UInt8)
    (packetid : UInt16) (topicName : MQTTString) (payload : ℕ) (payloadlen : ℤ) : Mem × ℤ :=
  let remLen := serializePublishLength qos topicName payloadlen
  if buflen < packetLen remLen then (m, bufferTooShort)
  else
    let w := writeChar (m, buf) (MQTTHeader.ofBits publish dup qos retained)
    let w := writeEncoded w remLen
    let w := writeMQTTString w topicName
    let w := if 0 < qos then writeInt w packetid.toNat else w
    let w := copyBytes w payload payloadlen.toNat
    written buf w

def serializeAck (m : Mem) (buf : ℕ) (buflen : ℤ) (packettype : ℕ) (dup : UInt8) (packetid : UInt16) :
    Mem × ℤ :=
  if buflen < 4 then (m, bufferTooShort)
  else
    let qos := if packettype = pubrel then 1 else 0
    let w := writeChar (m, buf) (MQTTHeader.ofBits packettype dup qos 0)
    let w := writeEncoded w 2
    let w := writeInt w packetid.toNat
    written buf w

def serializePuback (m : Mem) (buf : ℕ) (buflen : ℤ) (packetid : UInt16) : Mem × ℤ :=
  serializeAck m buf buflen puback 0 packetid

def serializePubrel (m : Mem) (buf : ℕ) (buflen : ℤ) (dup : UInt8) (packetid : UInt16) : Mem × ℤ :=
  serializeAck m buf buflen pubrel dup packetid

def serializePubcomp (m : Mem) (buf : ℕ) (buflen : ℤ) (packetid : UInt16) : Mem × ℤ :=
  serializeAck m buf buflen pubcomp 0 packetid

/-- The variables that `MQTTDeserialize_publish` fills. -/
structure PublishData where
  dup : UInt8
  qos : ℕ
  retained : UInt8
  packetid : UInt16
  topicName : MQTTString
  payload : ℕ
  payloadlen : ℤ
deriving DecidableEq, Repr

/-- `MQTTDeserialize_publish`. After the length is read, `rc` is the number of its bytes until the end. -/
def deserializePublish (m : Mem) (d : PublishData) (buf : ℕ) : ℤ × PublishData :=
  let header := readChar m buf
  if MQTTHeader.type header.1 ≠ publish then (0, d)
  else
    let d := { d with
      dup := UInt8.ofNat (MQTTHeader.dup header.1)
      qos := MQTTHeader.qos header.1
      retained := UInt8.ofNat (MQTTHeader.retain header.1) }
    let r := packetDecodeBuf m header.2
    let curdata := header.2 + r.1
    let enddata := curdata + r.2
    let t := readMQTTLenString m d.topicName curdata enddata
    let d := { d with topicName := t.2.1 }
    if t.1 = false ∨ (enddata : ℤ) - t.2.2 < 0 then (r.1, d)
    else
      let id := readInt m t.2.2
      let d := if 0 < d.qos then { d with packetid := UInt16.ofNat id.1 } else d
      let curdata := if 0 < d.qos then id.2 else t.2.2
      (1, { d with payload := curdata, payloadlen := (enddata : ℤ) - curdata })

/-- The variables that `MQTTDeserialize_ack` fills. -/
structure AckData where
  packettype : UInt8
  dup : UInt8
  packetid : UInt16
deriving DecidableEq, Repr

def deserializeAck (m : Mem) (d : AckData) (buf : ℕ) : ℤ × AckData :=
  let header := readChar m buf
  let d := { d with
    dup := UInt8.ofNat (MQTTHeader.dup header.1)
    packettype := UInt8.ofNat (MQTTHeader.type header.1) }
  let r := packetDecodeBuf m header.2
  let curdata := header.2 + r.1
  let enddata := curdata + r.2
  if (enddata : ℤ) - curdata < 2 then (r.1, d)
  else (1, { d with packetid := UInt16.ofNat (readInt m curdata).1 })

def publishBody (qos : ℤ) (packetid : UInt16) (topic payload : List UInt8) : List UInt8 :=
  lenString topic ++ ((if 0 < qos then int16 packetid.toNat else []) ++ payload)

def publishPacket (dup : UInt8) (qos : ℤ) (retained : UInt8) (packetid : UInt16)
    (topic payload : List UInt8) : List UInt8 :=
  Base128.frame (MQTTHeader.ofBits publish dup qos retained) (publishBody qos packetid topic payload)

def ackPacket (packettype : ℕ) (dup : UInt8) (packetid : UInt16) : List UInt8 :=
  let qos := if packettype = pubrel then 1 else 0
  Base128.frame (MQTTHeader.ofBits packettype dup qos 0) (int16 packetid.toNat)

/-- Nothing that a PUBLISH is made from lies in the buffer it is written to. -/
structure PublishSource (buf : ℕ) (topicName : MQTTString) (payload : ℕ) (payloadlen : ℕ) (size : ℕ) :
    Prop where
  topic : topicName.Valid
  topicApart : topicName.Apart buf (buf + size)
  payloadApart : payload + payloadlen ≤ buf ∨ buf + size ≤ payload

variable {m m' : Mem} {buf buf' p payload n : ℕ} {buflen qos : ℤ} {dup retained : UInt8}
  {packetid : UInt16} {topicName : MQTTString} {topic content : List UInt8}

theorem length_publishBody (qos : ℤ) (packetid : UInt16) (topic content : List UInt8) :
    ((publishBody qos packetid topic content).length : ℤ) =
      2 + topic.length + content.length + if 0 < qos then 2 else 0 := by
  unfold publishBody
  rw [List.length_append, List.length_append, length_lenString]
  split_ifs
  · simp only [int16, List.length_cons, List.length_nil]
    omega
  · simp only [List.length_nil]
    omega

theorem serializePublishLength_eq (h : topicName.Valid) (m : Mem) (payload n : ℕ) :
    serializePublishLength qos topicName n =
      (publishBody qos packetid (topicName.chars m) (read m payload n)).length := by
  unfold serializePublishLength
  rw [length_publishBody, strlen_eq h m, length_read]
  dsimp only
  split_ifs
  · rfl
  · exact (add_zero _).symm

/-- What is written behind the remaining length. -/
theorem writePublishBody {front : List UInt8} {size : ℕ}
    (hsrc : PublishSource buf topicName payload n size)
    (hsize : front.length +
      (publishBody qos packetid (topicName.chars m) (read m payload n)).length ≤ size) :
    (let w := writeMQTTString (emit (m, buf) front) topicName
    copyBytes (if 0 < qos then writeInt w packetid.toNat else w) payload n) =
      emit (m, buf) (front ++ publishBody qos packetid (topicName.chars m) (read m payload n)) := by
  obtain ⟨htopic, htopicApart, hpayloadApart⟩ := hsrc
  simp only [publishBody, List.length_append, length_lenString, length_read] at hsize
  have htopicFree : topicName.Apart buf (buf + (front.length + 2)) := by
    unfold MQTTString.Apart at htopicApart ⊢
    omega
  have hid : ∀ w : Cursor, (if 0 < qos then writeInt w packetid.toNat else w) =
      emit w (if 0 < qos then int16 packetid.toNat else []) := by
    intro w
    split_ifs
    · exact writeInt_eq w _
    · rfl
  have hpayloadFree : payload + n ≤ buf ∨ buf + (front ++ lenString (topicName.chars m) ++
      (if 0 < qos then int16 packetid.toNat else [])).length ≤ payload := by
    simp only [List.length_append, length_lenString]
    omega
  dsimp only
  rw [hid, writeMQTTString_eq htopic htopicFree, emit_emit, copyBytes_eq hpayloadFree, publishBody]
  simp only [List.append_assoc]

theorem serializePublish_eq {body packet : List UInt8}
    (hbody : body = publishBody qos packetid (topicName.chars m) (read m payload n))
    (hpacket : packet = Base128.frame (MQTTHeader.ofBits publish dup qos retained) body)
    (hsrc : PublishSource buf topicName payload n packet.length) :
    serializePublish m buf buflen dup qos retained packetid topicName payload n =
      if buflen < packetLen body.length then (m, bufferTooShort)
      else (write m buf packet, packet.length) := by
  have hremLen : serializePublishLength qos topicName n = body.length := by
    rw [hbody]
    exact serializePublishLength_eq hsrc.topic m payload n
  have hframe : packet = (MQTTHeader.ofBits publish dup qos retained :: Base128.encode body.length) ++ body :=
    hpacket
  have hsize := (congrArg List.length hframe).ge
  rw [List.length_append] at hsize
  have hwritten := writePublishBody hsrc (hbody ▸ hsize)
  rw [← hbody, ← hframe] at hwritten
  dsimp only at hwritten
  unfold serializePublish
  simp only [hremLen, writeHeader_eq, Int.toNat_natCast, hwritten]
  split_ifs
  · rfl
  · exact written_emit m buf packet

theorem holds_frame {header : UInt8} {body : List UInt8} (h : Holds m p (Base128.frame header body)) :
    m p = header ∧ Holds m (p + 1) (Base128.encode body.length) ∧
      Holds m (p + 1 + (Base128.encode body.length).length) body := by
  obtain ⟨hheader, hrest⟩ := holds_cons.mp h
  exact ⟨hheader, holds_append.mp hrest⟩

theorem deserializePublish_of_topic {d : PublishData} {k len q : ℕ} {t : MQTTString}
    (htype : MQTTHeader.type (m p) = publish) (hdecode : packetDecodeBuf m (p + 1) = (k, len))
    (htopic : readMQTTLenString m d.topicName (p + 1 + k) (p + 1 + k + len) = (true, t, q))
    (hend : q ≤ p + 1 + k + len) :
    deserializePublish m d p =
      let curdata := if 0 < MQTTHeader.qos (m p) then q + 2 else q
      (1, {
        dup := UInt8.ofNat (MQTTHeader.dup (m p))
        qos := MQTTHeader.qos (m p)
        retained := UInt8.ofNat (MQTTHeader.retain (m p))
        packetid := if 0 < MQTTHeader.qos (m p) then UInt16.ofNat (readInt m q).1 else d.packetid
        topicName := t
        payload := curdata
        payloadlen := ((p + 1 + k + len : ℕ) : ℤ) - curdata }) := by
  have hinside : ¬ (((p + 1 + k + len : ℕ) : ℤ) - (q : ℤ) < 0) := by omega
  unfold deserializePublish
  simp only [readChar, htype, ne_eq, not_true_eq_false, if_false, hdecode, htopic, hinside,
    Bool.true_eq_false, or_false]
  split_ifs
  · rfl
  · rfl

theorem deserializePublish_of_holds (hlen : (publishBody qos packetid topic content).length < 128 ^ 4)
    (htopic : topic.length < 2 ^ 16) (hqos : 0 ≤ qos ∧ qos < 4)
    (h : Holds m p (publishPacket dup qos retained packetid topic content)) (d : PublishData) :
    let r := deserializePublish m d p
    r.1 = 1 ∧ r.2.dup = UInt8.ofNat (dup.toNat % 2) ∧ r.2.qos = qos ∧
      r.2.retained = UInt8.ofNat (retained.toNat % 2) ∧ (0 < qos → r.2.packetid = packetid) ∧
      r.2.topicName.chars m = topic ∧ r.2.payloadlen = content.length ∧
      read m r.2.payload content.length = content ∧ 0 ≤ r.2.topicName.lenstring.len := by
  obtain ⟨hheader, hlength, hbody⟩ := holds_frame h
  obtain ⟨htopicHolds, hrest⟩ := holds_append.mp hbody
  obtain ⟨hid, hcontent⟩ := holds_append.mp hrest
  have hbodyLen := length_publishBody qos packetid topic content
  have hstringLen := length_lenString topic
  have hfit : (lenString topic).length ≤ (publishBody qos packetid topic content).length := by
    split_ifs at hbodyLen
    all_goals omega
  have hread := readMQTTLenString_of_holds (s := d.topicName) htopic htopicHolds
    (Nat.add_le_add_left hfit _)
  have htype : MQTTHeader.type (m p) = publish := by
    rw [hheader, MQTTHeader.type_ofBits]
    rfl
  have hqosNat : MQTTHeader.qos (m p) = qos := by
    rw [hheader, MQTTHeader.qos_ofBits]
    omega
  have hpos : 0 < MQTTHeader.qos (m p) ↔ 0 < qos := by omega
  rw [deserializePublish_of_topic htype (packetDecodeBuf_of_holds hlen hlength) hread
    (Nat.add_le_add_left hfit _)]
  refine ⟨rfl, ?_, hqosNat, ?_, ?_, chars_of_holds htopicHolds, ?_, ?_, Int.natCast_nonneg _⟩
  · dsimp only
    rw [hheader, MQTTHeader.dup_ofBits]
  · dsimp only
    rw [hheader, MQTTHeader.retain_ofBits]
  · intro hq
    rw [if_pos hq] at hid
    dsimp only
    rw [if_pos (hpos.mpr hq), readInt_of_holds packetid.toNat_lt hid]
    exact UInt16.ofNat_toNat
  · simp only [hpos]
    split_ifs at hbodyLen ⊢
    all_goals omega
  · simp only [hpos]
    split_ifs at hcontent ⊢
    · exact hcontent.read_eq
    · exact hcontent.read_eq

theorem PublishSource.mono {size size' : ℕ} (h : PublishSource buf topicName payload n size')
    (hle : size ≤ size') : PublishSource buf topicName payload n size := by
  obtain ⟨htopic, htopicApart, hpayloadApart⟩ := h
  constructor
  · exact htopic
  · unfold MQTTString.Apart at htopicApart ⊢
    omega
  · omega

/-- What is serialized fits the buffer, changes nothing outside of the packet, and once its bytes have reached
another place it is deserialized to what it was made from. -/
theorem deserializePublish_serializePublish
    (hsrc : PublishSource buf topicName payload n buflen.toNat)
    (hlen : serializePublishLength qos topicName n < 128 ^ 4) (htopic : strlen topicName < 2 ^ 16)
    (hqos : 0 ≤ qos ∧ qos < 4)
    (hok : 0 < (serializePublish m buf buflen dup qos retained packetid topicName payload n).2) :
    let r := serializePublish m buf buflen dup qos retained packetid topicName payload n
    r.2 ≤ buflen ∧ (∀ x, x < buf ∨ buf + r.2.toNat ≤ x → r.1 x = m x) ∧
      ∀ m' p d, read m' p r.2.toNat = read r.1 buf r.2.toNat →
        let r' := deserializePublish m' d p
        r'.1 = 1 ∧ r'.2.dup = UInt8.ofNat (dup.toNat % 2) ∧ r'.2.qos = qos ∧
          r'.2.retained = UInt8.ofNat (retained.toNat % 2) ∧ (0 < qos → r'.2.packetid = packetid) ∧
          r'.2.topicName.chars m' = topicName.chars m ∧ r'.2.payloadlen = n ∧
          read m' r'.2.payload n = read m payload n := by
  obtain ⟨body, hbody⟩ : ∃ body, body =
    publishBody qos packetid (topicName.chars m) (read m payload n) := ⟨_, rfl⟩
  have hremLen : serializePublishLength qos topicName n = body.length := by
    rw [hbody]
    exact serializePublishLength_eq hsrc.topic m payload n
  have hbodyLen : body.length < 128 ^ 4 := by
    rw [hremLen] at hlen
    exact_mod_cast hlen
  have hserializes : Serializes m buf buflen (MQTTHeader.ofBits publish dup qos retained) body
      (serializePublish m buf buflen dup qos retained packetid topicName payload n) := by
    by_cases hshort : buflen < packetLen body.length
    · unfold serializePublish Serializes
      rw [hremLen, if_pos hshort, if_pos hshort]
    · have hsize := length_frame_le_packetLen (MQTTHeader.ofBits publish dup qos retained) hbodyLen
      exact serializePublish_eq hbody rfl (hsrc.mono (by omega))
  obtain ⟨hfit, -, hframe, hsent⟩ := hserializes.sent hbodyLen hok
  refine ⟨hfit, hframe, ?_⟩
  intro m' p d hcopy
  have hholds := hsent m' p hcopy
  rw [hbody] at hholds
  have htopic' : (topicName.chars m).length < 2 ^ 16 := by
    rw [strlen_eq hsrc.topic m] at htopic
    exact_mod_cast htopic
  obtain ⟨hone, hdup, hq, hretained, hid, hchars, hpayloadlen, hpayload, -⟩ :=
    deserializePublish_of_holds (hbody ▸ hbodyLen) htopic' hqos hholds d
  rw [length_read] at hpayloadlen hpayload
  exact ⟨hone, hdup, hq, hretained, hid, hchars, hpayloadlen, hpayload⟩

/-- The topic `a` and two bytes, with quality of service 1. -/
theorem deserializePublish_serializePublish_short :
    let r := serializePublish (fun _ => 0) 100 20 0 1 0 7 ⟨some [97], ⟨0, 0⟩⟩ 0 2
    0 < r.2 ∧ ∀ d, (deserializePublish r.1 d 100).1 = 1 ∧ (deserializePublish r.1 d 100).2.packetid = 7 ∧
      (deserializePublish r.1 d 100).2.topicName.chars r.1 = [97] ∧
      (deserializePublish r.1 d 100).2.payloadlen = 2 := by
  have hsrc : PublishSource 100 ⟨some [97], ⟨0, 0⟩⟩ 0 2 (20 : ℤ).toNat :=
    ⟨⟨.inr le_rfl, fun h => absurd h (by decide)⟩, .inl (by decide), .inl (by decide)⟩
  have hok : 0 < (serializePublish (fun _ => 0) 100 20 0 1 0 7 ⟨some [97], ⟨0, 0⟩⟩ 0 2).2 := by decide +kernel
  refine ⟨hok, fun d => ?_⟩
  obtain ⟨-, -, hback⟩ := deserializePublish_serializePublish hsrc (by decide) (by decide) (by decide) hok
  obtain ⟨hone, -, -, -, hid, htopic, hpayloadlen, -⟩ := hback _ 100 d rfl
  exact ⟨hone, hid (by decide), htopic, hpayloadlen⟩

theorem ackPacket_eq (packettype : ℕ) (dup : UInt8) (packetid : UInt16) : ackPacket packettype dup packetid =
    [MQTTHeader.ofBits packettype dup (if packettype = pubrel then 1 else 0) 0, 2] ++ int16 packetid.toNat := by
  have htwo : (int16 packetid.toNat).length = 2 := rfl
  unfold ackPacket Base128.frame
  rw [htwo, Base128.encode_of_lt (by omega)]
  rfl

@[simp] theorem length_ackPacket (packettype : ℕ) (dup : UInt8) (packetid : UInt16) :
    (ackPacket packettype dup packetid).length = 4 := by
  rw [ackPacket_eq]
  rfl

theorem serializeAck_eq (m : Mem) (buf : ℕ) (buflen : ℤ) (packettype : ℕ) (dup : UInt8)
    (packetid : UInt16) :
    serializeAck m buf buflen packettype dup packetid =
      if buflen < 4 then (m, bufferTooShort) else (write m buf (ackPacket packettype dup packetid), 4) := by
  obtain ⟨qos, hqos⟩ : ∃ qos : ℤ, qos = if packettype = pubrel then 1 else 0 := ⟨_, rfl⟩
  have hencode : Base128.encode 2 = [2] := Base128.encode_of_lt (by omega)
  have hhead := writeHeader_eq (m, buf) (MQTTHeader.ofBits packettype dup qos 0) 2
  rw [Nat.cast_ofNat, hencode] at hhead
  have hpacket := ackPacket_eq packettype dup packetid
  rw [← hqos] at hpacket
  unfold serializeAck
  simp only [← hqos, hhead, writeInt_eq, emit_emit, ← hpacket, written_emit, length_ackPacket]
  rfl

theorem deserializeAck_of_holds {packettype : ℕ} (h : Holds m p (ackPacket packettype dup packetid))
    (d : AckData) :
    deserializeAck m d p = (1, {
      packettype := UInt8.ofNat (packettype % 16)
      dup := UInt8.ofNat (dup.toNat % 2)
      packetid := packetid }) := by
  obtain ⟨hheader, hlength, hbody⟩ := holds_frame h
  have htwo : (int16 packetid.toNat).length = 2 := rfl
  rw [htwo] at hlength hbody
  have hdecode := packetDecodeBuf_of_holds (by omega) hlength
  have hid := readInt_of_holds packetid.toNat_lt hbody
  unfold deserializeAck
  simp only [readChar, hheader, hdecode, hid, MQTTHeader.dup_ofBits, MQTTHeader.type_ofBits,
    UInt16.ofNat_toNat]
  rw [if_neg (by omega)]

end EmbeddedTemplate.Mqtt
