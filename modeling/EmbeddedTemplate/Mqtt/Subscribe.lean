import EmbeddedTemplate.Mqtt.Connect

/-! Subscriptions and their acknowledgements, from `MQTTSubscribeClient.c`, `MQTTSubscribeServer.c`,
`MQTTUnsubscribeClient.c` and `MQTTUnsubscribeServer.c`. An array of the caller is a function of the index. -/
namespace EmbeddedTemplate.Mqtt

open ByteMem

/-- The conversion of a `char` to `int`, which depends on whether `char` is signed. -/
def charToInt (charSigned : Bool) (c : UInt8) : ℤ :=
  if charSigned && 128 ≤ c.toNat then (c.toNat : ℤ) - 256 else c.toNat

def serializeSubscribeLength (topicFilters : List MQTTString) : ℤ :=
  2 + (topicFilters.map fun s => 2 + strlen s + 1).sum

/-- `MQTTSerialize_subscribe`, with the topic filters and their requested qualities of service in one list. -/
def serializeSubscribe (m : Mem) (buf : ℕ) (buflen : ℤ) (dup : UInt8) (packetid : UInt16)
    (requests : List (MQTTString × ℤ)) : Mem × ℤ :=
  let remLen := serializeSubscribeLength (requests.map (·.1))
  if buflen < packetLen remLen then (m, bufferTooShort)
  else
    let w := writeChar (m, buf) (MQTTHeader.ofBits subscribe dup 1 0)
    let w := writeEncoded w remLen
    let w := writeInt w packetid.toNat
    let w := requests.foldl (fun w r => writeChar (writeMQTTString w r.1) (uchar r.2)) w
    written buf w

/-- The variables that `MQTTDeserialize_subscribe` fills. -/
structure SubscribeData where
  dup : UInt8
  packetid : UInt16
  count : ℕ
  topicFilters : ℕ → MQTTString
  requestedQoSs : ℕ → ℤ

theorem readMQTTLenString_true {m : Mem} {s : MQTTString} {ptr enddata : ℕ}
    (h : ¬ (readMQTTLenString m s ptr enddata).1 = false) :
    readMQTTLenString m s ptr enddata =
      (true, ⟨none, ⟨(readInt m ptr).1, ptr + 2⟩⟩, ptr + 2 + (readInt m ptr).1) ∧
      ptr + 2 + (readInt m ptr).1 ≤ enddata := by
  have hptr : (readInt m ptr).2 = ptr + 2 := rfl
  unfold readMQTTLenString at h ⊢
  simp only [hptr] at h ⊢
  split_ifs at h ⊢ with hlen hend
  · exact ⟨rfl, hend⟩
  · exact absurd rfl h
  · exact absurd rfl h

theorem readMQTTLenString_lt {m : Mem} {s : MQTTString} {ptr enddata : ℕ}
    (h : ¬ (readMQTTLenString m s ptr enddata).1 = false) :
    ptr < (readMQTTLenString m s ptr enddata).2.2 ∧
      (readMQTTLenString m s ptr enddata).2.2 ≤ enddata := by
  obtain ⟨heq, hend⟩ := readMQTTLenString_true h
  rw [heq]
  exact ⟨by dsimp only; omega, hend⟩

/-- The rounds of the loop of `MQTTDeserialize_subscribe`. Returns whether it comes to its end. -/
def subscribeLoop (charSigned : Bool) (m : Mem) (enddata : ℕ) (d : SubscribeData) (curdata : ℕ) :
    Bool × SubscribeData :=
  if curdata < enddata then
    let t := readMQTTLenString m (d.topicFilters d.count) curdata enddata
    let d := { d with topicFilters := Function.update d.topicFilters d.count t.2.1 }
    if _h : t.1 = false then (false, d)
    else if enddata ≤ t.2.2 then (false, d)
    else
      let c := readChar m t.2.2
      let d := { d with
        requestedQoSs := Function.update d.requestedQoSs d.count (charToInt charSigned c.1)
        count := d.count + 1 }
      subscribeLoop charSigned m enddata d c.2
  else (true, d)
termination_by enddata - curdata
decreasing_by
  have hlt := readMQTTLenString_lt _h
  dsimp only [readChar]
  omega

/-- `MQTTDeserialize_subscribe`. `maxcount` is not used. -/
def deserializeSubscribe (charSigned : Bool) (m : Mem) (d : SubscribeData) (buf : ℕ) : ℤ × SubscribeData :=
  let header := readChar m buf
  if MQTTHeader.type header.1 ≠ subscribe then (-1, d)
  else
    let r := packetDecodeBuf m header.2
    let curdata := header.2 + r.1
    let enddata := curdata + r.2
    let id := readInt m curdata
    let d := { d with
      dup := UInt8.ofNat (MQTTHeader.dup header.1), packetid := UInt16.ofNat id.1, count := 0 }
    let loop := subscribeLoop charSigned m enddata d id.2
    (if loop.1 then 1 else r.1, loop.2)

def serializeSuback (m : Mem) (buf : ℕ) (buflen : ℤ) (packetid : UInt16) (grantedQoSs : List ℤ) : Mem × ℤ :=
  if buflen < 2 + grantedQoSs.length then (m, bufferTooShort)
  else
    let w := writeChar (m, buf) (MQTTHeader.ofBits suback 0 0 0)
    let w := writeEncoded w (2 + grantedQoSs.length)
    let w := writeInt w packetid.toNat
    let w := grantedQoSs.foldl (fun w q => writeChar w (uchar q)) w
    written buf w

/-- The variables that `MQTTDeserialize_suback` fills. -/
structure SubackData where
  packetid : UInt16
  count : ℕ
  grantedQoSs : ℕ → ℤ

/-- So many rounds of the loop of `MQTTDeserialize_suback`, one for each byte up to the end. -/
def subackLoop (charSigned : Bool) (m : Mem) (maxcount : ℤ) : ℕ → SubackData → ℕ → Bool × SubackData
  | 0, d, _ => (true, d)
  | rounds + 1, d, curdata =>
    if maxcount < d.count then (false, d)
    else
      let c := readChar m curdata
      subackLoop charSigned m maxcount rounds { d with
        grantedQoSs := Function.update d.grantedQoSs d.count (charToInt charSigned c.1)
        count := d.count + 1 } c.2

def deserializeSuback (charSigned : Bool) (m : Mem) (maxcount : ℤ) (d : SubackData) (buf : ℕ) :
    ℤ × SubackData :=
  let header := readChar m buf
  if MQTTHeader.type header.1 ≠ suback then (0, d)
  else
    let r := packetDecodeBuf m header.2
    let curdata := header.2 + r.1
    let enddata := curdata + r.2
    if (enddata : ℤ) - curdata < 2 then (r.1, d)
    else
      let id := readInt m curdata
      let d := { d with packetid := UInt16.ofNat id.1, count := 0 }
      let loop := subackLoop charSigned m maxcount (enddata - id.2) d id.2
      (if loop.1 then 1 else -1, loop.2)

def serializeUnsubscribeLength (topicFilters : List MQTTString) : ℤ :=
  2 + (topicFilters.map fun s => 2 + strlen s).sum

def serializeUnsubscribe (m : Mem) (buf : ℕ) (buflen : ℤ) (dup : UInt8) (packetid : UInt16)
    (topicFilters : List MQTTString) : Mem × ℤ :=
  let remLen := serializeUnsubscribeLength topicFilters
  if buflen < packetLen remLen then (m, bufferTooShort)
  else
    let w := writeChar (m, buf) (MQTTHeader.ofBits unsubscribe dup 1 0)
    let w := writeEncoded w remLen
    let w := writeInt w packetid.toNat
    let w := topicFilters.foldl writeMQTTString w
    written buf w

/-- The variables that `MQTTDeserialize_unsubscribe` fills. -/
structure UnsubscribeData where
  dup : UInt8
  packetid : UInt16
  count : ℕ
  topicFilters : ℕ → MQTTString

/-- The rounds of the loop of `MQTTDeserialize_unsubscribe`. -/
def unsubscribeLoop (m : Mem) (enddata : ℕ) (d : UnsubscribeData) (curdata : ℕ) : Bool × UnsubscribeData :=
  if curdata < enddata then
    let t := readMQTTLenString m (d.topicFilters d.count) curdata enddata
    let d := { d with topicFilters := Function.update d.topicFilters d.count t.2.1 }
    if _h : t.1 = false then (false, d)
    else unsubscribeLoop m enddata { d with count := d.count + 1 } t.2.2
  else (true, d)
termination_by enddata - curdata
decreasing_by
  have hlt := readMQTTLenString_lt _h
  omega

/-- `MQTTDeserialize_unsubscribe`. `maxcount` is not used. -/
def deserializeUnsubscribe (m : Mem) (d : UnsubscribeData) (buf : ℕ) : ℤ × UnsubscribeData :=
  let header := readChar m buf
  if MQTTHeader.type header.1 ≠ unsubscribe then (0, d)
  else
    let r := packetDecodeBuf m header.2
    let curdata := header.2 + r.1
    let enddata := curdata + r.2
    let id := readInt m curdata
    let d := { d with
      dup := UInt8.ofNat (MQTTHeader.dup header.1), packetid := UInt16.ofNat id.1, count := 0 }
    let loop := unsubscribeLoop m enddata d id.2
    (if loop.1 then 1 else r.1, loop.2)

/-- `MQTTSerialize_unsuback`. Four bytes are written, for which the length of the buffer is not asked. -/
def serializeUnsuback (m : Mem) (buf : ℕ) (buflen : ℤ) (packetid : UInt16) : Mem × ℤ :=
  if buflen < 2 then (m, bufferTooShort)
  else
    let w := writeChar (m, buf) (MQTTHeader.ofBits unsuback 0 0 0)
    let w := writeEncoded w 2
    let w := writeInt w packetid.toNat
    written buf w

/-- `MQTTDeserialize_unsuback`. Returns the packet identifier as well. -/
def deserializeUnsuback (m : Mem) (packetid : UInt16) (buf : ℕ) : ℤ × UInt16 :=
  let r := deserializeAck m ⟨0, 0, packetid⟩ buf
  (if r.2.packettype = 11 then 1 else r.1, r.2.packetid)

def requestsWire (requests : List (List UInt8 × UInt8)) : List UInt8 :=
  requests.flatMap fun r => lenString r.1 ++ [r.2]

theorem requestsWire_cons (r : List UInt8 × UInt8) (requests : List (List UInt8 × UInt8)) :
    requestsWire (r :: requests) = lenString r.1 ++ (r.2 :: requestsWire requests) := by
  simp [requestsWire]

variable {m m' : Mem} {buf p q size : ℕ} {buflen : ℤ} {dup : UInt8} {packetid : UInt16}

/-- The loop goes through all requests and fills one place of each array for one of them. -/
theorem subscribeLoop_of_holds (charSigned : Bool) {requests : List (List UInt8 × UInt8)}
    (hlen : ∀ r ∈ requests, r.1.length < 2 ^ 16) (h : Holds m q (requestsWire requests))
    (d : SubscribeData) :
    let r := subscribeLoop charSigned m (q + (requestsWire requests).length) d q
    r.1 = true ∧ r.2.dup = d.dup ∧ r.2.packetid = d.packetid ∧ r.2.count = d.count + requests.length ∧
      (∀ i < d.count, r.2.topicFilters i = d.topicFilters i ∧ r.2.requestedQoSs i = d.requestedQoSs i) ∧
      ∀ i, (hi : i < requests.length) → (r.2.topicFilters (d.count + i)).chars m = requests[i].1 ∧
        r.2.requestedQoSs (d.count + i) = charToInt charSigned requests[i].2 := by
  induction requests generalizing q d with
  | nil =>
    rw [subscribeLoop, if_neg (by simp [requestsWire])]
    simp
  | cons r requests ih =>
    rw [requestsWire_cons] at h ⊢
    obtain ⟨htopic, hqos, hrest⟩ := holds_append.mp h
    have hsize : (lenString r.1 ++ (r.2 :: requestsWire requests)).length =
        (lenString r.1).length + 1 + (requestsWire requests).length := by
      rw [List.length_append, List.length_cons]
      omega
    have htopicLen := length_lenString r.1
    have hfit : q + (lenString r.1).length ≤
        q + (lenString r.1 ++ (r.2 :: requestsWire requests)).length := by omega
    have hread := readMQTTLenString_of_holds (s := d.topicFilters d.count) (hlen r List.mem_cons_self)
      htopic hfit
    have hend : q + (lenString r.1 ++ (r.2 :: requestsWire requests)).length =
        q + (lenString r.1).length + 1 + (requestsWire requests).length := by omega
    have hnext := ih (fun r' hr' => hlen r' (List.mem_cons_of_mem r hr')) hrest { d with
      topicFilters := Function.update d.topicFilters d.count ⟨none, ⟨r.1.length, q + 2⟩⟩
      requestedQoSs := Function.update d.requestedQoSs d.count (charToInt charSigned r.2)
      count := d.count + 1 }
    rw [subscribeLoop, if_pos (by omega)]
    simp only [hread, Bool.true_eq_false, dite_false, readChar, hqos]
    rw [if_neg (by omega), hend]
    generalize subscribeLoop charSigned m _ _ _ = loop at hnext ⊢
    obtain ⟨hone, hdup, hid, hcount, hbefore, hentries⟩ := hnext
    dsimp only at hcount hbefore hentries
    refine ⟨hone, hdup, hid, ?_, ?_, ?_⟩
    · rw [hcount, List.length_cons]
      omega
    · intro i hi
      obtain ⟨htopics, hqoss⟩ := hbefore i (Nat.lt_succ_of_lt hi)
      rw [htopics, hqoss]
      exact ⟨Function.update_of_ne hi.ne _ _, Function.update_of_ne hi.ne _ _⟩
    · intro i hi
      cases i with
      | zero =>
        obtain ⟨htopics, hqoss⟩ := hbefore d.count d.count.lt_succ_self
        rw [Nat.add_zero, htopics, hqoss, Function.update_self, Function.update_self]
        exact ⟨chars_of_holds htopic, rfl⟩
      | succ i =>
        have hentry := hentries i (by simpa using hi)
        rwa [Nat.add_right_comm, Nat.add_assoc] at hentry

def subscribeBody (m : Mem) (packetid : UInt16) (requests : List (MQTTString × ℤ)) : List UInt8 :=
  int16 packetid.toNat ++ requestsWire (requests.map fun r => (r.1.chars m, uchar r.2))

def unsubscribeBody (m : Mem) (packetid : UInt16) (topicFilters : List MQTTString) : List UInt8 :=
  int16 packetid.toNat ++ lenStrings (topicFilters.map (·.chars m))

theorem foldl_requests {bs : List UInt8} {requests : List (MQTTString × ℤ)}
    (h : Sources buf size (requests.map (·.1)))
    (hsize : bs.length + (requestsWire (requests.map fun r => (r.1.chars m, uchar r.2))).length ≤ size) :
    requests.foldl (fun w r => writeChar (writeMQTTString w r.1) (uchar r.2)) (emit (m, buf) bs) =
      emit (m, buf) (bs ++ requestsWire (requests.map fun r => (r.1.chars m, uchar r.2))) := by
  induction requests generalizing bs with
  | nil => simp [requestsWire]
  | cons r requests ih =>
    rw [List.map_cons, requestsWire_cons, List.length_append, List.length_cons, length_lenString] at hsize
    rw [List.map_cons] at h
    have htopic := h.valid r.1 List.mem_cons_self
    have happart := (h.apart r.1 List.mem_cons_self).mono (show bs.length + 2 ≤ size by omega)
    have hrest : Sources buf size (requests.map (·.1)) :=
      ⟨fun t ht => h.valid t (List.mem_cons_of_mem _ ht), fun t ht => h.apart t (List.mem_cons_of_mem _ ht)⟩
    rw [List.foldl_cons, writeMQTTString_eq htopic happart, writeChar_eq, emit_emit, ih hrest, List.map_cons,
      requestsWire_cons]
    · simp only [List.append_assoc, List.cons_append, List.nil_append]
    · simp only [List.length_append, length_lenString, List.length_cons, List.length_nil] at hsize ⊢
      omega

theorem length_subscribeBody {requests : List (MQTTString × ℤ)} (h : Sources buf size (requests.map (·.1)))
    (m : Mem) (packetid : UInt16) : serializeSubscribeLength (requests.map (·.1)) =
      (subscribeBody m packetid requests).length := by
  unfold serializeSubscribeLength subscribeBody
  rw [List.length_append, Nat.cast_add]
  congr 1
  induction requests with
  | nil => rfl
  | cons r requests ih =>
    rw [List.map_cons] at h
    have htopic := strlen_eq (h.valid r.1 List.mem_cons_self) m
    have hrest : Sources buf size (requests.map (·.1)) :=
      ⟨fun t ht => h.valid t (List.mem_cons_of_mem _ ht), fun t ht => h.apart t (List.mem_cons_of_mem _ ht)⟩
    simp only [List.map_cons, List.sum_cons, requestsWire_cons, List.length_append, List.length_cons,
      length_lenString, ih hrest, htopic]
    omega

theorem serializes_subscribe {requests : List (MQTTString × ℤ)} (hsrc : Sources buf size (requests.map (·.1)))
    (hsize : packetLen (subscribeBody m packetid requests).length ≤ buflen →
      (Base128.frame (MQTTHeader.ofBits subscribe dup 1 0) (subscribeBody m packetid requests)).length ≤ size) :
    Serializes m buf buflen (MQTTHeader.ofBits subscribe dup 1 0) (subscribeBody m packetid requests)
      (serializeSubscribe m buf buflen dup packetid requests) := by
  have hlength := length_subscribeBody hsrc m packetid
  have hframe : Base128.frame (MQTTHeader.ofBits subscribe dup 1 0) (subscribeBody m packetid requests) =
      (MQTTHeader.ofBits subscribe dup 1 0 :: Base128.encode (subscribeBody m packetid requests).length ++
        int16 packetid.toNat) ++ requestsWire (requests.map fun r => (r.1.chars m, uchar r.2)) := by
    rw [Base128.frame, List.append_assoc, List.cons_append]
    rfl
  generalize (subscribeBody m packetid requests) = body at *
  unfold serializeSubscribe Serializes
  rw [hlength]
  by_cases hshort : buflen < packetLen body.length
  · rw [if_pos hshort, if_pos hshort]
  · have hroom := (congrArg List.length hframe).ge
    rw [List.length_append] at hroom
    rw [if_neg hshort, if_neg hshort]
    simp only [writeHeader_eq, writeInt_eq, emit_emit]
    rw [foldl_requests hsrc (hroom.trans (hsize (not_lt.mp hshort))), ← hframe, written_emit]

/-- Whatever the number of requests is, the other side finds all of them in their order. -/
theorem deserializeSubscribe_serializeSubscribe {requests : List (MQTTString × ℤ)}
    (hsrc : Sources buf buflen.toNat (requests.map (·.1)))
    (hlen : serializeSubscribeLength (requests.map (·.1)) < 128 ^ 4)
    (htopics : ∀ r ∈ requests, strlen r.1 < 2 ^ 16)
    (hok : 0 < (serializeSubscribe m buf buflen dup packetid requests).2) :
    let r := serializeSubscribe m buf buflen dup packetid requests
    r.2 ≤ buflen ∧ (∀ x, x < buf ∨ buf + r.2.toNat ≤ x → r.1 x = m x) ∧
      ∀ charSigned m' p d, read m' p r.2.toNat = read r.1 buf r.2.toNat →
        let r' := deserializeSubscribe charSigned m' d p
        r'.1 = 1 ∧ r'.2.dup = UInt8.ofNat (dup.toNat % 2) ∧ r'.2.packetid = packetid ∧
          r'.2.count = requests.length ∧
          ∀ i, (hi : i < requests.length) → (r'.2.topicFilters i).chars m' = requests[i].1.chars m ∧
            r'.2.requestedQoSs i = charToInt charSigned (uchar requests[i].2) := by
  obtain ⟨body, hbody⟩ : ∃ body, body = subscribeBody m packetid requests := ⟨_, rfl⟩
  have hlength : serializeSubscribeLength (requests.map (·.1)) = body.length := by
    rw [hbody]
    exact length_subscribeBody hsrc m packetid
  have hbodyLen : body.length < 128 ^ 4 := by
    rw [hlength] at hlen
    exact_mod_cast hlen
  have hserializes : Serializes m buf buflen (MQTTHeader.ofBits subscribe dup 1 0) body
      (serializeSubscribe m buf buflen dup packetid requests) := by
    have hsize := length_frame_le_packetLen (MQTTHeader.ofBits subscribe dup 1 0) hbodyLen
    rw [hbody] at hsize ⊢
    exact serializes_subscribe hsrc fun hroom => by omega
  obtain ⟨hfit, -, hframe, hsent⟩ := hserializes.sent hbodyLen hok
  refine ⟨hfit, hframe, ?_⟩
  intro charSigned m' p d hcopy
  obtain ⟨hheader, hlengthHolds, hbodyHolds⟩ := holds_frame (hsent m' p hcopy)
  have hdecode := packetDecodeBuf_of_holds hbodyLen hlengthHolds
  obtain ⟨q, hq⟩ : ∃ q, q = p + 1 + (Base128.encode body.length).length := ⟨_, rfl⟩
  rw [← hq, hbody] at hbodyHolds
  obtain ⟨hidHolds, hrequests⟩ := holds_append.mp hbodyHolds
  have hid := readInt_of_holds packetid.toNat_lt hidHolds
  have htwo : (int16 packetid.toNat).length = 2 := rfl
  rw [htwo] at hrequests
  have hend : q + body.length = q + 2 +
      (requestsWire (requests.map fun r => (r.1.chars m, uchar r.2))).length := by
    rw [hbody, subscribeBody, List.length_append, htwo, Nat.add_assoc]
  have hshorts : ∀ r ∈ requests.map fun r => (r.1.chars m, uchar r.2), r.1.length < 2 ^ 16 := by
    intro r hr
    obtain ⟨t, ht, rfl⟩ := List.mem_map.mp hr
    have hshort := htopics t ht
    rw [strlen_eq (hsrc.valid t.1 (List.mem_map_of_mem ht)) m] at hshort
    exact_mod_cast hshort
  have htype : MQTTHeader.type (MQTTHeader.ofBits subscribe dup 1 0) = subscribe := by
    rw [MQTTHeader.type_ofBits]
    rfl
  have hloop := subscribeLoop_of_holds charSigned hshorts hrequests { d with
    dup := UInt8.ofNat (dup.toNat % 2), packetid := packetid, count := 0 }
  unfold deserializeSubscribe
  simp only [readChar, hheader, htype, ne_eq, not_true_eq_false, if_false, hdecode, ← hq, hid, hend,
    MQTTHeader.dup_ofBits, UInt16.ofNat_toNat]
  generalize subscribeLoop charSigned m' _ _ _ = loop at hloop ⊢
  obtain ⟨hone, hdup, hidBack, hcount, -, hentries⟩ := hloop
  refine ⟨if_pos hone, hdup, hidBack, by simpa using hcount, ?_⟩
  intro i hi
  have hentry := hentries i (by simpa using hi)
  rw [Nat.zero_add, List.getElem_map] at hentry
  exact hentry

/-- One filter `a`. -/
theorem deserializeSubscribe_serializeSubscribe_one :
    let r := serializeSubscribe (fun _ => 0) 100 20 0 7 [(⟨some [97], ⟨0, 0⟩⟩, 1)]
    0 < r.2 ∧ ∀ d, (deserializeSubscribe true r.1 d 100).1 = 1 ∧ (deserializeSubscribe true r.1 d 100).2.count = 1 ∧
      ((deserializeSubscribe true r.1 d 100).2.topicFilters 0).chars r.1 = [97] := by
  have hsrc : Sources 100 (20 : ℤ).toNat [⟨some [97], ⟨0, 0⟩⟩] := sources_cstrings (by decide)
  have hok : 0 < (serializeSubscribe (fun _ => 0) 100 20 0 7 [(⟨some [97], ⟨0, 0⟩⟩, 1)]).2 := by decide +kernel
  refine ⟨hok, fun d => ?_⟩
  obtain ⟨-, -, hback⟩ := deserializeSubscribe_serializeSubscribe hsrc (by decide) (by decide) hok
  obtain ⟨hone, -, -, hcount, hfilters⟩ := hback true _ 100 d rfl
  exact ⟨hone, hcount, (hfilters 0 Nat.zero_lt_one).1⟩

theorem unsubscribeLoop_of_holds {strings : List (List UInt8)} (hlen : ∀ s ∈ strings, s.length < 2 ^ 16)
    (h : Holds m q (lenStrings strings)) (d : UnsubscribeData) :
    let r := unsubscribeLoop m (q + (lenStrings strings).length) d q
    r.1 = true ∧ r.2.dup = d.dup ∧ r.2.packetid = d.packetid ∧ r.2.count = d.count + strings.length ∧
      (∀ i < d.count, r.2.topicFilters i = d.topicFilters i) ∧
      ∀ i, (hi : i < strings.length) → (r.2.topicFilters (d.count + i)).chars m = strings[i] := by
  induction strings generalizing q d with
  | nil =>
    rw [unsubscribeLoop, if_neg (by simp [lenStrings])]
    simp
  | cons s strings ih =>
    rw [lenStrings_cons] at h ⊢
    obtain ⟨htopic, hrest⟩ := holds_append.mp h
    have htopicLen := length_lenString s
    rw [List.length_append, ← Nat.add_assoc]
    have hread := readMQTTLenString_of_holds (s := d.topicFilters d.count) (hlen s List.mem_cons_self)
      htopic (Nat.le_add_right (q + (lenString s).length) (lenStrings strings).length)
    have hnext := ih (fun s' hs' => hlen s' (List.mem_cons_of_mem s hs')) hrest { d with
      topicFilters := Function.update d.topicFilters d.count ⟨none, ⟨s.length, q + 2⟩⟩
      count := d.count + 1 }
    rw [unsubscribeLoop, if_pos (by omega)]
    simp only [hread, Bool.true_eq_false, dite_false]
    generalize unsubscribeLoop m _ _ _ = loop at hnext ⊢
    obtain ⟨hone, hdup, hid, hcount, hbefore, hentries⟩ := hnext
    dsimp only at hcount hbefore hentries
    refine ⟨hone, hdup, hid, ?_, ?_, ?_⟩
    · rw [hcount, List.length_cons]
      omega
    · intro i hi
      rw [hbefore i (Nat.lt_succ_of_lt hi)]
      exact Function.update_of_ne hi.ne _ _
    · intro i hi
      cases i with
      | zero =>
        rw [Nat.add_zero, hbefore d.count d.count.lt_succ_self, Function.update_self]
        exact chars_of_holds htopic
      | succ i =>
        have hentry := hentries i (by simpa using hi)
        rwa [Nat.add_right_comm, Nat.add_assoc] at hentry

theorem length_unsubscribeBody {topicFilters : List MQTTString} (h : Sources buf size topicFilters)
    (m : Mem) (packetid : UInt16) :
    serializeUnsubscribeLength topicFilters = (unsubscribeBody m packetid topicFilters).length := by
  have hsum := sum_strlen h m
  have htwo : (int16 packetid.toNat).length = 2 := rfl
  unfold serializeUnsubscribeLength unsubscribeBody
  rw [List.length_append, Nat.cast_add, ← hsum, htwo]
  simp only [add_comm, Nat.cast_ofNat]

theorem serializes_unsubscribe {topicFilters : List MQTTString} (hsrc : Sources buf size topicFilters)
    (hsize : packetLen (unsubscribeBody m packetid topicFilters).length ≤ buflen →
      (Base128.frame (MQTTHeader.ofBits unsubscribe dup 1 0)
        (unsubscribeBody m packetid topicFilters)).length ≤ size) :
    Serializes m buf buflen (MQTTHeader.ofBits unsubscribe dup 1 0) (unsubscribeBody m packetid topicFilters)
      (serializeUnsubscribe m buf buflen dup packetid topicFilters) := by
  have hlength := length_unsubscribeBody hsrc m packetid
  have hframe : Base128.frame (MQTTHeader.ofBits unsubscribe dup 1 0) (unsubscribeBody m packetid topicFilters) =
      (MQTTHeader.ofBits unsubscribe dup 1 0 :: Base128.encode (unsubscribeBody m packetid topicFilters).length ++
        int16 packetid.toNat) ++ lenStrings (topicFilters.map (·.chars m)) := by
    rw [Base128.frame, List.append_assoc, List.cons_append]
    rfl
  generalize (unsubscribeBody m packetid topicFilters) = body at *
  unfold serializeUnsubscribe Serializes
  rw [hlength]
  by_cases hshort : buflen < packetLen body.length
  · rw [if_pos hshort, if_pos hshort]
  · have hroom := (congrArg List.length hframe).ge
    rw [List.length_append] at hroom
    rw [if_neg hshort, if_neg hshort]
    simp only [writeHeader_eq, writeInt_eq, emit_emit]
    rw [foldl_writeMQTTString hsrc (hroom.trans (hsize (not_lt.mp hshort))), ← hframe, written_emit]

theorem deserializeUnsubscribe_serializeUnsubscribe {topicFilters : List MQTTString}
    (hsrc : Sources buf buflen.toNat topicFilters)
    (hlen : serializeUnsubscribeLength topicFilters < 128 ^ 4)
    (htopics : ∀ s ∈ topicFilters, strlen s < 2 ^ 16)
    (hok : 0 < (serializeUnsubscribe m buf buflen dup packetid topicFilters).2) :
    let r := serializeUnsubscribe m buf buflen dup packetid topicFilters
    r.2 ≤ buflen ∧ (∀ x, x < buf ∨ buf + r.2.toNat ≤ x → r.1 x = m x) ∧
      ∀ m' p d, read m' p r.2.toNat = read r.1 buf r.2.toNat →
        let r' := deserializeUnsubscribe m' d p
        r'.1 = 1 ∧ r'.2.dup = UInt8.ofNat (dup.toNat % 2) ∧ r'.2.packetid = packetid ∧
          r'.2.count = topicFilters.length ∧
          ∀ i, (hi : i < topicFilters.length) →
            (r'.2.topicFilters i).chars m' = topicFilters[i].chars m := by
  obtain ⟨body, hbody⟩ : ∃ body, body = unsubscribeBody m packetid topicFilters := ⟨_, rfl⟩
  have hlength : serializeUnsubscribeLength topicFilters = body.length := by
    rw [hbody]
    exact length_unsubscribeBody hsrc m packetid
  have hbodyLen : body.length < 128 ^ 4 := by
    rw [hlength] at hlen
    exact_mod_cast hlen
  have hserializes : Serializes m buf buflen (MQTTHeader.ofBits unsubscribe dup 1 0) body
      (serializeUnsubscribe m buf buflen dup packetid topicFilters) := by
    have hsize := length_frame_le_packetLen (MQTTHeader.ofBits unsubscribe dup 1 0) hbodyLen
    rw [hbody] at hsize ⊢
    exact serializes_unsubscribe hsrc fun hroom => by omega
  obtain ⟨hfit, -, hframe, hsent⟩ := hserializes.sent hbodyLen hok
  refine ⟨hfit, hframe, ?_⟩
  intro m' p d hcopy
  obtain ⟨hheader, hlengthHolds, hbodyHolds⟩ := holds_frame (hsent m' p hcopy)
  have hdecode := packetDecodeBuf_of_holds hbodyLen hlengthHolds
  obtain ⟨q, hq⟩ : ∃ q, q = p + 1 + (Base128.encode body.length).length := ⟨_, rfl⟩
  rw [← hq, hbody] at hbodyHolds
  obtain ⟨hidHolds, hstrings⟩ := holds_append.mp hbodyHolds
  have hid := readInt_of_holds packetid.toNat_lt hidHolds
  have htwo : (int16 packetid.toNat).length = 2 := rfl
  rw [htwo] at hstrings
  have hend : q + body.length = q + 2 + (lenStrings (topicFilters.map (·.chars m))).length := by
    rw [hbody, unsubscribeBody, List.length_append, htwo, Nat.add_assoc]
  have hshorts : ∀ s ∈ topicFilters.map (·.chars m), s.length < 2 ^ 16 := by
    intro s hs
    obtain ⟨t, ht, rfl⟩ := List.mem_map.mp hs
    have hshort := htopics t ht
    rw [strlen_eq (hsrc.valid t ht) m] at hshort
    exact_mod_cast hshort
  have htype : MQTTHeader.type (MQTTHeader.ofBits unsubscribe dup 1 0) = unsubscribe := by
    rw [MQTTHeader.type_ofBits]
    rfl
  have hloop := unsubscribeLoop_of_holds hshorts hstrings { d with
    dup := UInt8.ofNat (dup.toNat % 2), packetid := packetid, count := 0 }
  unfold deserializeUnsubscribe
  simp only [readChar, hheader, htype, ne_eq, not_true_eq_false, if_false, hdecode, ← hq, hid, hend,
    MQTTHeader.dup_ofBits, UInt16.ofNat_toNat]
  generalize unsubscribeLoop m' _ _ _ = loop at hloop ⊢
  obtain ⟨hone, hdup, hidBack, hcount, -, hentries⟩ := hloop
  refine ⟨if_pos hone, hdup, hidBack, by simpa using hcount, ?_⟩
  intro i hi
  have hentry := hentries i (by simpa using hi)
  rw [Nat.zero_add, List.getElem_map] at hentry
  exact hentry

theorem deserializeUnsubscribe_serializeUnsubscribe_one :
    let r := serializeUnsubscribe (fun _ => 0) 100 20 0 7 [⟨some [97], ⟨0, 0⟩⟩]
    0 < r.2 ∧ ∀ d, (deserializeUnsubscribe r.1 d 100).1 = 1 ∧ (deserializeUnsubscribe r.1 d 100).2.count = 1 ∧
      ((deserializeUnsubscribe r.1 d 100).2.topicFilters 0).chars r.1 = [97] := by
  have hsrc : Sources 100 (20 : ℤ).toNat [⟨some [97], ⟨0, 0⟩⟩] := sources_cstrings (by decide)
  have hok : 0 < (serializeUnsubscribe (fun _ => 0) 100 20 0 7 [⟨some [97], ⟨0, 0⟩⟩]).2 := by decide +kernel
  refine ⟨hok, fun d => ?_⟩
  obtain ⟨-, -, hback⟩ := deserializeUnsubscribe_serializeUnsubscribe hsrc (by decide) (by decide) hok
  obtain ⟨hone, -, -, hcount, hfilters⟩ := hback _ 100 d rfl
  exact ⟨hone, hcount, hfilters 0 Nat.zero_lt_one⟩

theorem foldl_writeChar (w : Cursor) (codes : List ℤ) :
    codes.foldl (fun w q => writeChar w (uchar q)) w = emit w (codes.map uchar) := by
  induction codes generalizing w with
  | nil => rfl
  | cons c codes ih =>
    rw [List.foldl_cons, ih, writeChar_eq, emit_emit]
    rfl

/-- The loop stops in front of the byte for which `count` has passed `maxcount`. -/
theorem subackLoop_cases (charSigned : Bool) (m : Mem) {maxcount : ℕ} (n : ℕ) {d : SubackData}
    (h : d.count ≤ maxcount + 1) (q : ℕ) :
    let r := subackLoop charSigned m maxcount n d q
    (r.1 = true ↔ d.count + n ≤ maxcount + 1) ∧ r.2.packetid = d.packetid ∧
      r.2.count = min (d.count + n) (maxcount + 1) ∧
      ∀ i, r.2.grantedQoSs i = if d.count ≤ i ∧ i < min (d.count + n) (maxcount + 1) then
        charToInt charSigned (m (q + (i - d.count))) else d.grantedQoSs i := by
  induction n generalizing d q with
  | zero =>
    have hmin : min (d.count + 0) (maxcount + 1) = d.count := by omega
    refine ⟨⟨fun _ => h, fun _ => rfl⟩, rfl, hmin.symm, ?_⟩
    intro i
    rw [hmin, if_neg (by omega)]
    rfl
  | succ n ih =>
    rw [subackLoop]
    by_cases hstop : (maxcount : ℤ) < d.count
    · have hcount : d.count = maxcount + 1 := by omega
      rw [if_pos hstop]
      refine ⟨⟨fun h => absurd h Bool.false_ne_true, fun h => by omega⟩, rfl, by dsimp only; omega, ?_⟩
      intro i
      rw [if_neg (by omega)]
    · have hnext := ih (d := { d with
        grantedQoSs := Function.update d.grantedQoSs d.count (charToInt charSigned (m q))
        count := d.count + 1 }) (by dsimp only; omega) (q + 1)
      rw [if_neg hstop]
      simp only [readChar]
      generalize subackLoop charSigned m maxcount n _ _ = loop at hnext ⊢
      obtain ⟨hone, hid, hcount, hentries⟩ := hnext
      dsimp only at hone hid hcount hentries
      refine ⟨hone.trans (by omega), hid, by rw [hcount]; omega, ?_⟩
      intro i
      rw [hentries i]
      rcases lt_trichotomy i d.count with hi | rfl | hi
      · rw [if_neg (by omega), if_neg (by omega)]
        exact Function.update_of_ne hi.ne _ _
      · rw [if_neg (by omega), if_pos (by omega), Nat.sub_self]
        exact Function.update_self d.count _ _
      · have hshift : q + 1 + (i - (d.count + 1)) = q + (i - d.count) := by omega
        have hiff : (d.count + 1 ≤ i ∧ i < min (d.count + 1 + n) (maxcount + 1)) ↔
            (d.count ≤ i ∧ i < min (d.count + (n + 1)) (maxcount + 1)) := by omega
        rw [hshift, Function.update_of_ne hi.ne']
        exact if_congr hiff rfl rfl

/-- All return codes are stored as long as there are no more than `maxcount + 1` of them. The last of so many
is stored behind an array of `maxcount` places, and the call succeeds. -/
theorem deserializeSuback_serializeSuback {codes : List ℤ} (hlen : 2 + codes.length < 128 ^ 4)
    (hok : 0 < (serializeSuback m buf buflen packetid codes).2) :
    let r := serializeSuback m buf buflen packetid codes
    r.2 = 3 + codes.length + (Base128.encode (2 + codes.length)).length ∧
      (∀ x, x < buf ∨ buf + r.2.toNat ≤ x → r.1 x = m x) ∧
      ∀ charSigned m' p d (maxcount : ℕ), read m' p r.2.toNat = read r.1 buf r.2.toNat →
        let r' := deserializeSuback charSigned m' maxcount d p
        r'.1 = (if codes.length ≤ maxcount + 1 then 1 else -1) ∧ r'.2.packetid = packetid ∧
          r'.2.count = min codes.length (maxcount + 1) ∧
          ∀ i, r'.2.grantedQoSs i = if h : i < min codes.length (maxcount + 1) then
            charToInt charSigned (uchar codes[i]) else d.grantedQoSs i := by
  obtain ⟨body, hbody⟩ : ∃ body, body = int16 packetid.toNat ++ codes.map uchar := ⟨_, rfl⟩
  have hbodyLen : body.length = 2 + codes.length := by
    rw [hbody, List.length_append, List.length_map]
    rfl
  obtain ⟨packet, hpacket⟩ : ∃ packet, packet = Base128.frame (MQTTHeader.ofBits suback 0 0 0) body :=
    ⟨_, rfl⟩
  have hwritten : serializeSuback m buf buflen packetid codes = (write m buf packet, (packet.length : ℤ)) := by
    have hcast : (2 + (codes.length : ℤ)) = ((2 + codes.length : ℕ) : ℤ) := by omega
    have hframe : MQTTHeader.ofBits suback 0 0 0 :: Base128.encode (2 + codes.length) ++
        (int16 packetid.toNat ++ codes.map uchar) = packet := by
      rw [hpacket, Base128.frame, hbodyLen, hbody]
      rfl
    unfold serializeSuback at hok ⊢
    by_cases hshort : buflen < 2 + codes.length
    · rw [if_pos hshort] at hok
      have hneg : ¬ (0 : ℤ) < bufferTooShort := by decide
      exact absurd hok hneg
    · rw [if_neg hshort]
      simp only [hcast, writeHeader_eq, writeInt_eq, emit_emit, foldl_writeChar, List.append_assoc]
      rw [← List.append_assoc, List.append_assoc, hframe, written_emit]
  rw [hwritten]
  have hsize : packet.length = 3 + codes.length + (Base128.encode (2 + codes.length)).length := by
    rw [hpacket, Base128.frame, List.length_cons, List.length_append, hbodyLen]
    omega
  refine ⟨by dsimp only; omega, fun x hx => write_of_disjoint hx, ?_⟩
  intro charSigned m' p d maxcount hcopy
  have hholds : Holds m' p packet := holds_of_copy hcopy
  rw [hpacket] at hholds
  obtain ⟨hheader, hlengthHolds, hbodyHolds⟩ := holds_frame hholds
  have hdecode := packetDecodeBuf_of_holds (hbodyLen ▸ hlen) hlengthHolds
  obtain ⟨q, hq⟩ : ∃ q, q = p + 1 + (Base128.encode body.length).length := ⟨_, rfl⟩
  rw [← hq, hbody] at hbodyHolds
  rw [hbodyLen] at hdecode hq
  obtain ⟨hidHolds, hcodes⟩ := holds_append.mp hbodyHolds
  have hid := readInt_of_holds packetid.toNat_lt hidHolds
  have hrounds : q + (2 + codes.length) - (q + 2) = codes.length := by omega
  have hroom : ¬ ((q + (2 + codes.length) : ℕ) : ℤ) - q < 2 := by omega
  have htype : MQTTHeader.type (MQTTHeader.ofBits suback 0 0 0) = suback := by
    rw [MQTTHeader.type_ofBits]
    rfl
  have hloop := subackLoop_cases charSigned m' codes.length
    (d := { d with packetid := packetid, count := 0 }) (Nat.zero_le (maxcount + 1)) (q + 2)
  unfold deserializeSuback
  simp only [readChar, hheader, htype, ne_eq, not_true_eq_false, if_false, hdecode, ← hq, hid,
    hroom, hrounds, UInt16.ofNat_toNat]
  generalize subackLoop charSigned m' _ _ _ _ = loop at hloop ⊢
  obtain ⟨hone, hidBack, hcount, hentries⟩ := hloop
  simp only [Nat.zero_add] at hone hcount hentries
  refine ⟨if_congr hone rfl rfl, hidBack, hcount, ?_⟩
  intro i
  rw [hentries i]
  by_cases hi : i < min codes.length (maxcount + 1)
  · have hlt : i < (codes.map uchar).length := by
      rw [List.length_map]
      omega
    have hcode := hcodes.getElem hlt
    have htwo : (int16 packetid.toNat).length = 2 := rfl
    rw [List.getElem_map, htwo] at hcode
    rw [if_pos ⟨Nat.zero_le i, hi⟩, dif_pos hi, Nat.sub_zero, hcode]
  · rw [if_neg (by omega), dif_neg hi]

/-- Two codes for one place. -/
theorem deserializeSuback_serializeSuback_two :
    let r := serializeSuback (fun _ => 0) 100 20 7 [1, 2]
    0 < r.2 ∧ ∀ d, (deserializeSuback true r.1 1 d 100).1 = 1 ∧
      (deserializeSuback true r.1 1 d 100).2.grantedQoSs 1 = 2 := by
  have hok : 0 < (serializeSuback (fun _ => 0) 100 20 7 [1, 2]).2 := by decide +kernel
  refine ⟨hok, fun d => ?_⟩
  obtain ⟨-, -, hback⟩ := deserializeSuback_serializeSuback (by decide) hok
  obtain ⟨hone, -, -, hcodes⟩ := hback true _ 100 d 1 rfl
  exact ⟨hone, hcodes 1⟩

end EmbeddedTemplate.Mqtt
