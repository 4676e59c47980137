import EmbeddedTemplate.Mqtt.Subscribe

/-! Which packets the functions that deserialize report as a success. Most of them keep the number of bytes of
the remaining length in the variable that they return. -/
namespace EmbeddedTemplate.Mqtt

open ByteMem

variable {m : Mem} {p q : ℕ}

/-- A string that is read is a string on the wire. -/
theorem holds_lenString_of_read {s : MQTTString} {ptr enddata : ℕ}
    (h : ¬ (readMQTTLenString m s ptr enddata).1 = false) :
    ∃ string : List UInt8, string.length < 2 ^ 16 ∧ Holds m ptr (lenString string) ∧
      (readMQTTLenString m s ptr enddata).2.2 = ptr + (lenString string).length := by
  obtain ⟨heq, hend⟩ := readMQTTLenString_true h
  have hhi := (m ptr).toNat_lt
  have hlo := (m (ptr + 1)).toNat_lt
  refine ⟨read m (ptr + 2) (readInt m ptr).1, ?_, ?_, ?_⟩
  · rw [length_read]
    unfold readInt
    dsimp only
    omega
  · rw [lenString, length_read]
    refine ⟨?_, ?_, holds_read m (ptr + 2) (readInt m ptr).1⟩
    · apply UInt8.toNat_inj.mp
      unfold readInt
      rw [Base128.toNat_digit (by dsimp only; omega)]
      dsimp only
      omega
    · apply UInt8.toNat_inj.mp
      unfold readInt
      rw [Base128.toNat_digit (by dsimp only; omega)]
      dsimp only
      omega
  · rw [heq, length_lenString, length_read, Nat.add_assoc]

theorem subscribeLoop_eq_true_iff (charSigned : Bool) {enddata : ℕ} (d : SubscribeData) (h : q ≤ enddata) :
    (subscribeLoop charSigned m enddata d q).1 = true ↔ ∃ requests : List (List UInt8 × UInt8),
      (∀ r ∈ requests, r.1.length < 2 ^ 16) ∧ Holds m q (requestsWire requests) ∧
        enddata = q + (requestsWire requests).length := by
  constructor
  · intro htrue
    fun_induction subscribeLoop charSigned m enddata d q with
    | case1 => cases htrue
    | case2 => cases htrue
    | case3 d q hlt t d' hread hroom c d'' ih =>
      obtain ⟨string, hstring, hholds, hptr⟩ := holds_lenString_of_read hread
      have hnext : c.2 = q + (lenString string).length + 1 := congrArg (· + 1) hptr
      have hbefore : t.2.2 = q + (lenString string).length := hptr
      obtain ⟨requests, hlen, hrest, hend⟩ := ih (by omega) htrue
      rw [hnext] at hrest hend
      refine ⟨(string, c.1) :: requests, ?_, ?_, ?_⟩
      · intro r hr
        rcases List.mem_cons.mp hr with rfl | hr
        · exact hstring
        · exact hlen r hr
      · rw [requestsWire_cons]
        exact holds_append.mpr ⟨hholds, congrArg m hbefore.symm, hrest⟩
      · rw [requestsWire_cons, List.length_append, List.length_cons]
        dsimp only
        omega
    | case4 d q hge =>
      refine ⟨[], by simp, trivial, ?_⟩
      simp only [requestsWire, List.flatMap_nil, List.length_nil]
      omega
  · rintro ⟨requests, hlen, hholds, rfl⟩
    exact (subscribeLoop_of_holds charSigned hlen hholds d).1

theorem unsubscribeLoop_eq_true_iff {enddata : ℕ} (d : UnsubscribeData) (h : q ≤ enddata) :
    (unsubscribeLoop m enddata d q).1 = true ↔ ∃ strings : List (List UInt8),
      (∀ s ∈ strings, s.length < 2 ^ 16) ∧ Holds m q (lenStrings strings) ∧
        enddata = q + (lenStrings strings).length := by
  constructor
  · intro htrue
    fun_induction unsubscribeLoop m enddata d q with
    | case1 => cases htrue
    | case2 d q hlt t d' hread ih =>
      obtain ⟨string, hstring, hholds, hptr⟩ := holds_lenString_of_read hread
      have hnext : t.2.2 = q + (lenString string).length := hptr
      obtain ⟨strings, hlen, hrest, hend⟩ := ih (readMQTTLenString_lt hread).2 htrue
      rw [hnext] at hrest hend
      refine ⟨string :: strings, ?_, ?_, ?_⟩
      · intro s hs
        rcases List.mem_cons.mp hs with rfl | hs
        · exact hstring
        · exact hlen s hs
      · rw [lenStrings_cons]
        exact holds_append.mpr ⟨hholds, hrest⟩
      · rw [lenStrings_cons, List.length_append]
        omega
    | case3 d q hge =>
      refine ⟨[], by simp, trivial, ?_⟩
      simp only [lenStrings, List.flatMap_nil, List.length_nil]
      omega
  · rintro ⟨strings, hlen, hholds, rfl⟩
    exact (unsubscribeLoop_of_holds hlen hholds d).1

/-- The number of bytes that the remaining length of the packet at `p` takes. -/
def lengthBytes (m : Mem) (p : ℕ) : ℕ := (packetDecodeBuf m (p + 1)).1

/-- The remaining length of the packet at `p`. -/
def remaining (m : Mem) (p : ℕ) : ℕ := (packetDecodeBuf m (p + 1)).2

def bodyStart (m : Mem) (p : ℕ) : ℕ := p + 1 + lengthBytes m p

/-- A string of the packet at `p` that lies inside of it. -/
def TopicFits (m : Mem) (p : ℕ) : Prop :=
  ∃ topic : List UInt8, topic.length < 2 ^ 16 ∧ Holds m (bodyStart m p) (lenString topic) ∧
    (lenString topic).length ≤ remaining m p

theorem deserializePublish_eq_one_iff (m : Mem) (d : PublishData) (p : ℕ) :
    (deserializePublish m d p).1 = 1 ↔
      MQTTHeader.type (m p) = publish ∧ (TopicFits m p ∨ lengthBytes m p = 1) := by
  by_cases htype : MQTTHeader.type (m p) = publish
  · by_cases hread : (readMQTTLenString m d.topicName (bodyStart m p)
        (bodyStart m p + remaining m p)).1 = false
    · have hres : (deserializePublish m d p).1 = lengthBytes m p := by
        unfold deserializePublish
        unfold bodyStart remaining lengthBytes at hread
        simp only [readChar, htype, ne_eq, not_true_eq_false, if_false, hread, true_or, if_true]
        rfl
      have hfits : ¬ TopicFits m p := by
        rintro ⟨topic, hlen, hholds, hle⟩
        rw [readMQTTLenString_of_holds hlen hholds (Nat.add_le_add_left hle _)] at hread
        cases hread
      rw [hres]
      simp only [htype, hfits, true_and, false_or, Nat.cast_eq_one]
    · obtain ⟨topic, hlen, hholds, hptr⟩ := holds_lenString_of_read hread
      have hlt := (readMQTTLenString_lt hread).2
      have hres : (deserializePublish m d p).1 = 1 := by
        obtain ⟨heq, hend⟩ := readMQTTLenString_true hread
        rw [deserializePublish_of_topic htype rfl heq hend]
      have hfits : TopicFits m p := ⟨topic, hlen, hholds, by omega⟩
      rw [hres]
      simp only [htype, hfits, true_and, true_or]
  · have hzero : (deserializePublish m d p).1 = 0 := by
      unfold deserializePublish
      simp only [readChar, ne_eq, htype, not_false_eq_true, if_true]
    rw [hzero]
    simp [htype]

theorem end_sub_start_lt_iff (m : Mem) (p : ℕ) :
    ((p + 1 + (packetDecodeBuf m (p + 1)).1 + (packetDecodeBuf m (p + 1)).2 : ℕ) : ℤ) -
      (p + 1 + (packetDecodeBuf m (p + 1)).1 : ℕ) < 2 ↔ ¬ 2 ≤ remaining m p := by
  unfold remaining
  omega

theorem deserializeAck_eq_one_iff (m : Mem) (d : AckData) (p : ℕ) :
    (deserializeAck m d p).1 = 1 ↔ 2 ≤ remaining m p ∨ lengthBytes m p = 1 := by
  have hres : (deserializeAck m d p).1 = if 2 ≤ remaining m p then 1 else (lengthBytes m p : ℤ) := by
    unfold deserializeAck
    simp only [readChar, end_sub_start_lt_iff, ite_not, apply_ite Prod.fst]
    rfl
  rw [hres]
  split_ifs with h
  · simp only [h, true_or]
  · simp only [h, false_or, Nat.cast_eq_one]

theorem deserializeConnack_eq_one_iff (m : Mem) (sessionPresent connackRc : UInt8) (p : ℕ) :
    (deserializeConnack m sessionPresent connackRc p).1 = 1 ↔
      MQTTHeader.type (m p) = connack ∧ (2 ≤ remaining m p ∨ lengthBytes m p = 1) := by
  have hres : (deserializeConnack m sessionPresent connackRc p).1 =
      if MQTTHeader.type (m p) = connack then if 2 ≤ remaining m p then 1 else (lengthBytes m p : ℤ)
      else 0 := by
    unfold deserializeConnack
    simp only [readChar, end_sub_start_lt_iff, ne_eq, ite_not, apply_ite Prod.fst]
    rfl
  rw [hres]
  split_ifs with htype h
  · simp only [htype, h, true_and, true_or]
  · simp only [htype, h, true_and, false_or, Nat.cast_eq_one]
  · simp [htype]

theorem deserializeSuback_eq_one_iff (charSigned : Bool) (m : Mem) (maxcount : ℕ) (d : SubackData) (p : ℕ) :
    (deserializeSuback charSigned m maxcount d p).1 = 1 ↔ MQTTHeader.type (m p) = suback ∧
      (2 ≤ remaining m p ∧ remaining m p ≤ maxcount + 3 ∨ remaining m p < 2 ∧ lengthBytes m p = 1) := by
  have hptr : ∀ q, (readInt m q).2 = q + 2 := fun _ => rfl
  have hrounds : p + 1 + (packetDecodeBuf m (p + 1)).1 + (packetDecodeBuf m (p + 1)).2 -
      (p + 1 + (packetDecodeBuf m (p + 1)).1 + 2) = remaining m p - 2 := by
    unfold remaining
    omega
  have hloop : ∀ d : SubackData, d.count = 0 → ∀ q,
      ((subackLoop charSigned m maxcount (remaining m p - 2) d q).1 = true ↔
        remaining m p ≤ maxcount + 3) := by
    intro d hd q
    rw [(subackLoop_cases charSigned m (remaining m p - 2) (by omega) q).1]
    omega
  have hres : (deserializeSuback charSigned m maxcount d p).1 =
      if MQTTHeader.type (m p) = suback then
        if 2 ≤ remaining m p then if remaining m p ≤ maxcount + 3 then 1 else -1
        else (lengthBytes m p : ℤ)
      else 0 := by
    unfold deserializeSuback
    simp only [readChar, end_sub_start_lt_iff, ne_eq, ite_not, apply_ite Prod.fst, hptr, hrounds,
      hloop { d with packetid := _, count := 0 } rfl]
    rfl
  rw [hres]
  split_ifs with htype h hroom
  · simp [htype, h, hroom]
  · have hlong : ¬ remaining m p < 2 := by omega
    simp [htype, hroom, hlong]
  · simp only [htype, h, true_and, false_and, false_or, Nat.cast_eq_one]
    omega
  · simp [htype]

/-- The packet at `p` has nothing but requests behind its identifier. -/
def RequestsFit (m : Mem) (p : ℕ) : Prop :=
  remaining m p < 2 ∨ ∃ requests : List (List UInt8 × UInt8), (∀ r ∈ requests, r.1.length < 2 ^ 16) ∧
    Holds m (bodyStart m p + 2) (requestsWire requests) ∧
      remaining m p = 2 + (requestsWire requests).length

theorem deserializeSubscribe_eq_one_iff (charSigned : Bool) (m : Mem) (d : SubscribeData) (p : ℕ) :
    (deserializeSubscribe charSigned m d p).1 = 1 ↔
      MQTTHeader.type (m p) = subscribe ∧ (RequestsFit m p ∨ lengthBytes m p = 1) := by
  have hptr : ∀ q, (readInt m q).2 = q + 2 := fun _ => rfl
  have hloop : ∀ d : SubscribeData,
      (subscribeLoop charSigned m (bodyStart m p + remaining m p) d (bodyStart m p + 2)).1 = true ↔
        RequestsFit m p := by
    intro d
    unfold RequestsFit
    by_cases hshort : remaining m p < 2
    · rw [subscribeLoop, if_neg (by omega)]
      simp [hshort]
    · rw [subscribeLoop_eq_true_iff charSigned d (by omega)]
      simp only [hshort, false_or]
      refine exists_congr fun requests => and_congr_right fun _ => and_congr_right fun _ => ?_
      omega
  have hres : (deserializeSubscribe charSigned m d p).1 = 1 ↔ MQTTHeader.type (m p) = subscribe ∧
      ((subscribeLoop charSigned m (bodyStart m p + remaining m p) { d with
        dup := UInt8.ofNat (MQTTHeader.dup (m p))
        packetid := UInt16.ofNat (readInt m (bodyStart m p)).1
        count := 0 } (bodyStart m p + 2)).1 = true ∨ lengthBytes m p = 1) := by
    unfold deserializeSubscribe bodyStart remaining lengthBytes
    simp only [readChar, hptr, ne_eq, ite_not, apply_ite Prod.fst]
    split_ifs with htype hend
    · simp [htype, hend]
    · simp [htype, hend]
    · simp [htype]
  rw [hres, hloop]

/-- The packet at `p` has nothing but strings behind its identifier. -/
def StringsFit (m : Mem) (p : ℕ) : Prop :=
  remaining m p < 2 ∨ ∃ strings : List (List UInt8), (∀ s ∈ strings, s.length < 2 ^ 16) ∧
    Holds m (bodyStart m p + 2) (lenStrings strings) ∧ remaining m p = 2 + (lenStrings strings).length

theorem deserializeUnsubscribe_eq_one_iff (m : Mem) (d : UnsubscribeData) (p : ℕ) :
    (deserializeUnsubscribe m d p).1 = 1 ↔
      MQTTHeader.type (m p) = unsubscribe ∧ (StringsFit m p ∨ lengthBytes m p = 1) := by
  have hptr : ∀ q, (readInt m q).2 = q + 2 := fun _ => rfl
  have hloop : ∀ d : UnsubscribeData,
      (unsubscribeLoop m (bodyStart m p + remaining m p) d (bodyStart m p + 2)).1 = true ↔
        StringsFit m p := by
    intro d
    unfold StringsFit
    by_cases hshort : remaining m p < 2
    · rw [unsubscribeLoop, if_neg (by omega)]
      simp [hshort]
    · rw [unsubscribeLoop_eq_true_iff d (by omega)]
      simp only [hshort, false_or]
      refine exists_congr fun strings => and_congr_right fun _ => and_congr_right fun _ => ?_
      omega
  have hres : (deserializeUnsubscribe m d p).1 = 1 ↔ MQTTHeader.type (m p) = unsubscribe ∧
      ((unsubscribeLoop m (bodyStart m p + remaining m p) { d with
        dup := UInt8.ofNat (MQTTHeader.dup (m p))
        packetid := UInt16.ofNat (readInt m (bodyStart m p)).1
        count := 0 } (bodyStart m p + 2)).1 = true ∨ lengthBytes m p = 1) := by
    unfold deserializeUnsubscribe bodyStart remaining lengthBytes
    simp only [readChar, hptr, ne_eq, ite_not, apply_ite Prod.fst]
    split_ifs with htype hend
    · simp [htype, hend]
    · simp [htype, hend]
    · simp [htype]
  rw [hres, hloop]

/-- A malformed packet is a success whenever its remaining length takes one byte: what the functions return
then is the number of these bytes. -/
theorem deserialize_eq_one_iff (charSigned : Bool) (m : Mem) (p : ℕ) :
    (∀ d, (deserializePublish m d p).1 = 1 ↔
      MQTTHeader.type (m p) = publish ∧ (TopicFits m p ∨ lengthBytes m p = 1)) ∧
    (∀ d, (deserializeAck m d p).1 = 1 ↔ 2 ≤ remaining m p ∨ lengthBytes m p = 1) ∧
    (∀ sp rc, (deserializeConnack m sp rc p).1 = 1 ↔
      MQTTHeader.type (m p) = connack ∧ (2 ≤ remaining m p ∨ lengthBytes m p = 1)) ∧
    (∀ (maxcount : ℕ) d, (deserializeSuback charSigned m maxcount d p).1 = 1 ↔
      MQTTHeader.type (m p) = suback ∧ (2 ≤ remaining m p ∧ remaining m p ≤ maxcount + 3 ∨
        remaining m p < 2 ∧ lengthBytes m p = 1)) ∧
    (∀ d, (deserializeSubscribe charSigned m d p).1 = 1 ↔
      MQTTHeader.type (m p) = subscribe ∧ (RequestsFit m p ∨ lengthBytes m p = 1)) ∧
    (∀ d, (deserializeUnsubscribe m d p).1 = 1 ↔
      MQTTHeader.type (m p) = unsubscribe ∧ (StringsFit m p ∨ lengthBytes m p = 1)) :=
  ⟨fun d => deserializePublish_eq_one_iff m d p, fun d => deserializeAck_eq_one_iff m d p,
    fun sp rc => deserializeConnack_eq_one_iff m sp rc p,
    fun maxcount d => deserializeSuback_eq_one_iff charSigned m maxcount d p,
    fun d => deserializeSubscribe_eq_one_iff charSigned m d p,
    fun d => deserializeUnsubscribe_eq_one_iff m d p⟩

end EmbeddedTemplate.Mqtt
