import EmbeddedTemplate.Lib.Base128
import EmbeddedTemplate.Lib.ByteSeq
import EmbeddedTemplate.Lib.Word
import Mathlib.Data.Int.DivMod
import Mathlib.Tactic.NormNum

/-! The fields of an MQTT packet, from `MQTTPacket.c`. An `int` is an integer, a pointer the address of a byte,
and 0 the null pointer. Nothing writes to a C string, which is the list of its characters. -/
namespace EmbeddedTemplate.Mqtt

open ByteMem

structure MQTTLenString where
  len : ℤ
  data : ℕ
deriving DecidableEq, Repr

structure MQTTString where
  cstring : Option (List UInt8)
  lenstring : MQTTLenString
deriving DecidableEq, Repr

def MQTTString.initializer : MQTTString := ⟨none, ⟨0, 0⟩⟩

/-- `enum msgTypes`. -/
def connect : ℕ := 1
def connack : ℕ := 2
def publish : ℕ := 3
def puback : ℕ := 4
def pubrec : ℕ := 5
def pubrel : ℕ := 6
def pubcomp : ℕ := 7
def subscribe : ℕ := 8
def suback : ℕ := 9
def unsubscribe : ℕ := 10
def unsuback : ℕ := 11
def pingreq : ℕ := 12
def pingresp : ℕ := 13
def disconnect : ℕ := 14

def bufferTooShort : ℤ := -2
def readError : ℤ := -1

/-- `MQTTHeader` with all of its bit-fields assigned. A bit-field keeps the low bits of its value. -/
def MQTTHeader.ofBits (type : ℕ) (dup : UInt8) (qos : ℤ) (retain : UInt8) : UInt8 :=
  UInt8.ofNat (type % 16 * 16 + dup.toNat % 2 * 8 + (qos % 4).toNat * 2 + retain.toNat % 2)

def MQTTHeader.retain (byte : UInt8) : ℕ := byte.toNat % 2
def MQTTHeader.qos (byte : UInt8) : ℕ := byte.toNat / 2 % 4
def MQTTHeader.dup (byte : UInt8) : ℕ := byte.toNat / 8 % 2
def MQTTHeader.type (byte : UInt8) : ℕ := byte.toNat / 16

/-- The conversion of an `int` to `unsigned char`. -/
def uchar (n : ℤ) : UInt8 := UInt8.ofNat (n % 256).toNat

abbrev Cursor := Mem × ℕ

/-- The rounds of `MQTTPacket_encode` from `rc` on. -/
def encodeLoop (m : Mem) (buf rc : ℕ) (length : ℤ) : Mem × ℕ :=
  let d := uchar (length.tmod 128)
  let length' := length.tdiv 128
  let d := if 0 < length' then d ||| 0x80 else d
  let m := Function.update m (buf + rc) d
  if 0 < length' then encodeLoop m buf (rc + 1) length' else (m, rc + 1)
termination_by length.toNat
decreasing_by
  have hpos : 0 < length.tdiv 128 := by assumption
  cases length with
  | ofNat n =>
    have hdiv : Int.tdiv (Int.ofNat n) 128 = ↑(n / 128) := rfl
    rw [hdiv] at hpos ⊢
    simp only [Int.ofNat_eq_natCast, Int.toNat_natCast]
    omega
  | negSucc n =>
    have hdiv : Int.tdiv (Int.negSucc n) 128 = -↑((n + 1) / 128) := rfl
    omega

/-- `MQTTPacket_encode`. Returns the number of bytes as well. -/
def packetEncode (m : Mem) (buf : ℕ) (length : ℤ) : Mem × ℕ := encodeLoop m buf 0 length

def maxNoOfRemainingLengthBytes : ℕ := 4

section Decode
variable {σ : Type*} (getcharfn : σ → σ × ℤ × UInt8)

/-- The rounds of `MQTTPacket_decode`, of which so many can read a byte. -/
def decodeLoop : ℕ → σ → ℕ → ℕ → ℕ → σ × ℕ × ℕ
  | 0, s, len, value, _ => (s, len + 1, value)
  | rounds + 1, s, len, value, multiplier =>
    let r := getcharfn s
    let c := r.2.2
    if r.2.1 ≠ 1 then (r.1, len + 1, value)
    else
      let value := value + (c &&& 127).toNat * multiplier
      if c &&& 128 ≠ 0 then decodeLoop rounds r.1 (len + 1) value (multiplier * 128)
      else (r.1, len + 1, value)

/-- `MQTTPacket_decode`. Returns the source after it, the length and the value. -/
def packetDecode (s : σ) : σ × ℕ × ℕ := decodeLoop getcharfn maxNoOfRemainingLengthBytes s 0 0 1

end Decode

def packetLen (remLen : ℤ) : ℤ :=
  let remLen := remLen + 1
  if remLen < 128 then remLen + 1
  else if remLen < 16384 then remLen + 2
  else if remLen < 2097151 then remLen + 3
  else remLen + 4

/-- `bufchar` for one byte, with `bufptr` as the source. -/
def bufchar (m : Mem) (bufptr : ℕ) : ℕ × ℤ × UInt8 := (bufptr + 1, 1, m bufptr)

/-- `MQTTPacket_decodeBuf`. Returns the length and the value. -/
def packetDecodeBuf (m : Mem) (buf : ℕ) : ℕ × ℕ := (packetDecode (bufchar m) buf).2

def readInt (m : Mem) (ptr : ℕ) : ℕ × ℕ := (256 * (m ptr).toNat + (m (ptr + 1)).toNat, ptr + 2)

def readChar (m : Mem) (ptr : ℕ) : UInt8 × ℕ := (m ptr, ptr + 1)

def writeChar (w : Cursor) (c : UInt8) : Cursor := (Function.update w.1 w.2 c, w.2 + 1)

def writeInt (w : Cursor) (anInt : ℤ) : Cursor :=
  writeChar (writeChar w (uchar (anInt.tdiv 256))) (uchar (anInt.tmod 256))

/-- `MQTTPacket_encode(ptr, length)`, and `ptr` moved behind it. -/
def writeEncoded (w : Cursor) (length : ℤ) : Cursor :=
  let r := packetEncode w.1 w.2 length
  (r.1, w.2 + r.2)

/-- `memcpy(ptr, src, n)`, and `ptr` moved behind it. -/
def copyBytes (w : Cursor) (src n : ℕ) : Cursor := (write w.1 w.2 (read w.1 src n), w.2 + n)

def writeCString (w : Cursor) (string : List UInt8) : Cursor :=
  let w := writeInt w string.length
  (write w.1 w.2 string, w.2 + string.length)

def writeMQTTString (w : Cursor) (s : MQTTString) : Cursor :=
  if 0 < s.lenstring.len then
    copyBytes (writeInt w s.lenstring.len) s.lenstring.data s.lenstring.len.toNat
  else
    match s.cstring with
    | some string => writeCString w string
    | none => writeInt w 0

/-- `rc = ptr - buf`, where the memory is left as it is. -/
def written (buf : ℕ) (w : Cursor) : Mem × ℤ := (w.1, (w.2 : ℤ) - buf)

/-- `readMQTTLenString`. Returns whether it succeeds, the string and the pointer. -/
def readMQTTLenString (m : Mem) (s : MQTTString) (ptr enddata : ℕ) : Bool × MQTTString × ℕ :=
  if 1 < (enddata : ℤ) - ptr then
    let r := readInt m ptr
    if r.2 + r.1 ≤ enddata then (true, ⟨none, ⟨r.1, r.2⟩⟩, r.2 + r.1)
    else (false, ⟨none, ⟨r.1, s.lenstring.data⟩⟩, r.2)
  else (false, ⟨none, s.lenstring⟩, ptr)

def strlen (s : MQTTString) : ℤ :=
  match s.cstring with
  | some string => string.length
  | none => s.lenstring.len

def packetEquals (m : Mem) (a : MQTTString) (b : List UInt8) : Bool :=
  match a.cstring with
  | some string => string == b
  | none => a.lenstring.len == b.length && read m a.lenstring.data a.lenstring.len.toNat == b

/-- A number below `2 ^ 16` on the wire. -/
def int16 (n : ℕ) : List UInt8 := [UInt8.ofNat (n / 256), UInt8.ofNat (n % 256)]

def lenString (string : List UInt8) : List UInt8 := int16 string.length ++ string

/-- The characters that `writeMQTTString` writes. -/
def MQTTString.chars (m : Mem) (s : MQTTString) : List UInt8 :=
  if 0 < s.lenstring.len then read m s.lenstring.data s.lenstring.len.toNat else s.cstring.getD []

/-- At most one of the two forms is used, so that `MQTTstrlen` and `writeMQTTString` see the same string. -/
structure MQTTString.Valid (s : MQTTString) : Prop where
  single : s.cstring = none ∨ s.lenstring.len ≤ 0
  nonneg : s.cstring = none → 0 ≤ s.lenstring.len

/-- The characters lie outside `[lo, hi)`. -/
def MQTTString.Apart (s : MQTTString) (lo hi : ℕ) : Prop :=
  s.lenstring.data + s.lenstring.len.toNat ≤ lo ∨ hi ≤ s.lenstring.data

theorem length_lenString (string : List UInt8) : (lenString string).length = 2 + string.length := by
  rw [lenString, List.length_append]
  rfl

variable {m : Mem} {p n buf : ℕ} {w : Cursor} {s : MQTTString} {string bs : List UInt8}

theorem strlen_eq (h : s.Valid) (m : Mem) : strlen s = (s.chars m).length := by
  obtain ⟨cstring, len, data⟩ := s
  cases cstring with
  | none =>
    have hlen : 0 ≤ len := h.nonneg rfl
    rcases hlen.lt_or_eq with hpos | rfl
    · have hn : ((len.toNat : ℕ) : ℤ) = len := Int.toNat_of_nonneg hlen
      simp [strlen, MQTTString.chars, hpos, hn]
    · simp [strlen, MQTTString.chars]
  | some string =>
    have hlen : len ≤ 0 := h.single.resolve_left (Option.some_ne_none string)
    have hnot : ¬ 0 < len := by omega
    simp [strlen, MQTTString.chars, hnot]

theorem digit_eq {n : ℕ} : n < 128 → (UInt8.ofNat n ||| 0x80 : UInt8) = UInt8.ofNat (n + 128) := by
  have hall : ∀ i : Fin 128, (UInt8.ofNat i ||| 0x80 : UInt8) = UInt8.ofNat (i + 128) := by decide +kernel
  exact fun h => hall ⟨n, h⟩

theorem uchar_natCast (n : ℕ) : uchar n = UInt8.ofNat n := by
  unfold uchar
  have hmod : ((n : ℤ) % 256).toNat = n % 256 := by omega
  rw [hmod]
  apply UInt8.toNat_inj.mp
  simp

theorem encodeLoop_eq (m : Mem) (buf rc n : ℕ) :
    encodeLoop m buf rc n =
      (write m (buf + rc) (Base128.encode n), rc + (Base128.encode n).length) := by
  induction n using Nat.strongRecOn generalizing m rc with
  | ind n ih =>
    have hdiv : (n : ℤ).tdiv 128 = ((n / 128 : ℕ) : ℤ) := rfl
    have hmod : (n : ℤ).tmod 128 = ((n % 128 : ℕ) : ℤ) := rfl
    rw [encodeLoop]
    simp only [hdiv, hmod, uchar_natCast]
    rcases lt_or_ge n 128 with h | h
    · have hzero : ¬ (0 : ℤ) < ((n / 128 : ℕ) : ℤ) := by omega
      have hself : n % 128 = n := Nat.mod_eq_of_lt h
      simp only [hzero, if_false, hself, Base128.encode_of_lt h]
      rfl
    · have hpos : (0 : ℤ) < ((n / 128 : ℕ) : ℤ) := by omega
      have hdigit : n % 128 < 128 := Nat.mod_lt n (by omega)
      simp only [hpos, if_true, digit_eq hdigit, Base128.encode_of_ge h]
      rw [ih (n / 128) (by omega), write, List.length_cons]
      congr 1
      omega

theorem writeEncoded_eq (w : Cursor) (n : ℕ) : writeEncoded w n = emit w (Base128.encode n) := by
  unfold writeEncoded packetEncode emit
  rw [encodeLoop_eq]
  simp only [Nat.add_zero, Nat.zero_add]

theorem writeChar_eq (w : Cursor) (c : UInt8) : writeChar w c = emit w [c] := rfl

theorem writeInt_eq (w : Cursor) (n : ℕ) : writeInt w n = emit w (int16 n) := by
  have hdiv : (n : ℤ).tdiv 256 = ((n / 256 : ℕ) : ℤ) := rfl
  have hmod : (n : ℤ).tmod 256 = ((n % 256 : ℕ) : ℤ) := rfl
  unfold writeInt
  rw [hdiv, hmod, uchar_natCast, uchar_natCast, writeChar_eq, writeChar_eq, emit_emit]
  rfl

theorem writeHeader_eq (w : Cursor) (header : UInt8) (n : ℕ) :
    writeEncoded (writeChar w header) n = emit w (header :: Base128.encode n) := by
  rw [writeChar_eq, writeEncoded_eq, emit_emit]
  rfl

theorem written_emit (m : Mem) (buf : ℕ) (bs : List UInt8) :
    written buf (emit (m, buf) bs) = (write m buf bs, (bs.length : ℤ)) := by
  unfold written emit
  ext
  · rfl
  · dsimp only
    omega

theorem writeCString_eq (w : Cursor) (string : List UInt8) :
    writeCString w string = emit w (lenString string) := by
  have hcopy : ∀ v : Cursor, (write v.1 v.2 string, v.2 + string.length) = emit v string := fun _ => rfl
  unfold writeCString
  rw [writeInt_eq, hcopy, emit_emit]
  rfl

/-- The bytes are read from memory, where those before them are written already. -/
theorem copyBytes_eq {src : ℕ} (h : src + n ≤ buf ∨ buf + bs.length ≤ src) :
    copyBytes (emit (m, buf) bs) src n = emit (m, buf) (bs ++ read m src n) := by
  have hread : read (emit (m, buf) bs).1 src n = read m src n := read_write_of_disjoint h
  have hcopy : ∀ v : Cursor, copyBytes v src n = emit v (read v.1 src n) := by
    intro v
    simp [copyBytes, emit]
  rw [hcopy, hread, emit_emit]

theorem writeMQTTString_eq (h : s.Valid) (hs : s.Apart buf (buf + (bs.length + 2))) :
    writeMQTTString (emit (m, buf) bs) s = emit (m, buf) (bs ++ lenString (s.chars m)) := by
  obtain ⟨cstring, len, data⟩ := s
  unfold writeMQTTString
  dsimp only
  split_ifs with hpos
  · obtain ⟨k, rfl⟩ := Int.eq_ofNat_of_zero_le hpos.le
    have hk : 0 < ((k : ℕ) : ℤ) := hpos
    have happart : data + k ≤ buf ∨ buf + (bs ++ int16 k).length ≤ data := by
      simpa [MQTTString.Apart, int16] using hs
    simp only [MQTTString.chars, hk, if_true, Int.toNat_natCast]
    rw [writeInt_eq, emit_emit, copyBytes_eq happart, lenString, length_read, List.append_assoc]
  · simp only [MQTTString.chars, hpos, if_false]
    cases cstring with
    | none =>
      have hzero := writeInt_eq (emit (m, buf) bs) 0
      rw [Nat.cast_zero] at hzero
      simp only [hzero, emit_emit]
      rfl
    | some string =>
      simp only [writeCString_eq, emit_emit]
      rfl

def lenStrings (strings : List (List UInt8)) : List UInt8 := strings.flatMap lenString

/-- The strings can be read while `size` bytes from `buf` on are written. -/
structure Sources (buf size : ℕ) (ss : List MQTTString) : Prop where
  valid : ∀ s ∈ ss, s.Valid
  apart : ∀ s ∈ ss, s.Apart buf (buf + size)

theorem sources_cstrings {ss : List MQTTString} (h : ∀ s ∈ ss, s.cstring.isSome ∧ s.lenstring = ⟨0, 0⟩) :
    Sources buf size ss where
  valid s hs := by
    obtain ⟨hsome, hlen⟩ := h s hs
    refine ⟨.inr (by rw [hlen]), fun hnone => ?_⟩
    rw [hnone] at hsome
    cases hsome
  apart s hs := by
    left
    rw [(h s hs).2]
    exact Nat.zero_le buf

theorem MQTTString.Apart.mono {size size' : ℕ} (h : s.Apart buf (buf + size')) (hle : size ≤ size') :
    s.Apart buf (buf + size) := by
  unfold MQTTString.Apart at h ⊢
  omega

theorem Sources.mono {size size' : ℕ} {ss : List MQTTString} (h : Sources buf size' ss)
    (hle : size ≤ size') : Sources buf size ss where
  valid := h.valid
  apart s hs := (h.apart s hs).mono hle

theorem lenStrings_cons (string : List UInt8) (strings : List (List UInt8)) :
    lenStrings (string :: strings) = lenString string ++ lenStrings strings := List.flatMap_cons

theorem foldl_writeMQTTString {size : ℕ} {ss : List MQTTString} (h : Sources buf size ss)
    (hsize : bs.length + (lenStrings (ss.map (·.chars m))).length ≤ size) :
    ss.foldl writeMQTTString (emit (m, buf) bs) =
      emit (m, buf) (bs ++ lenStrings (ss.map (·.chars m))) := by
  induction ss generalizing bs with
  | nil => simp [lenStrings]
  | cons s ss ih =>
    rw [List.map_cons, lenStrings_cons, List.length_append, length_lenString] at hsize
    have hs := h.valid s List.mem_cons_self
    have happart := (h.apart s List.mem_cons_self).mono (show bs.length + 2 ≤ size by omega)
    have hrest : Sources buf size ss :=
      ⟨fun t ht => h.valid t (List.mem_cons_of_mem s ht), fun t ht => h.apart t (List.mem_cons_of_mem s ht)⟩
    rw [List.foldl_cons, writeMQTTString_eq hs happart, ih hrest, List.append_assoc, List.map_cons,
      lenStrings_cons]
    rw [List.length_append, length_lenString]
    omega

/-- The size on the wire, as the length functions add it up. -/
theorem sum_strlen {size : ℕ} {ss : List MQTTString} (h : Sources buf size ss) (m : Mem) :
    (ss.map fun s => strlen s + 2).sum = (lenStrings (ss.map (·.chars m))).length := by
  induction ss with
  | nil => rfl
  | cons s ss ih =>
    have hs := strlen_eq (h.valid s List.mem_cons_self) m
    have hrest : Sources buf size ss :=
      ⟨fun t ht => h.valid t (List.mem_cons_of_mem s ht), fun t ht => h.apart t (List.mem_cons_of_mem s ht)⟩
    rw [List.map_cons, List.sum_cons, ih hrest, hs, List.map_cons, lenStrings_cons, List.length_append,
      length_lenString]
    omega

theorem toNat_and_127 : ∀ c : UInt8, (c &&& 127).toNat = c.toNat % 128 := by decide +kernel

theorem and_128_ne_zero_iff : ∀ c : UInt8, c &&& 128 ≠ 0 ↔ 128 ≤ c.toNat := by decide +kernel

theorem decodeLoop_read {σ : Type*} {getcharfn : σ → σ × ℤ × UInt8} {s s' : σ} {c : UInt8}
    (h : getcharfn s = (s', 1, c)) (rounds len value multiplier : ℕ) :
    decodeLoop getcharfn (rounds + 1) s len value multiplier =
      if c.toNat < 128 then (s', len + 1, value + c.toNat * multiplier)
      else decodeLoop getcharfn rounds s' (len + 1) (value + (c.toNat - 128) * multiplier)
        (multiplier * 128) := by
  have hmod := toNat_and_127 c
  have htop := and_128_ne_zero_iff c
  have hbyte := c.toNat_lt
  rw [decodeLoop, h]
  simp only [ne_eq, not_true_eq_false, if_false]
  by_cases hc : c.toNat < 128
  · have hstop : ¬ (c &&& 128 ≠ 0) := by
      rw [htop]
      omega
    rw [if_neg hstop, if_pos hc, hmod, Nat.mod_eq_of_lt hc]
  · have hlow : c.toNat % 128 = c.toNat - 128 := by omega
    rw [if_pos (htop.mpr (by omega)), if_neg hc, hmod, hlow]

theorem decodeLoop_bufchar {k : ℕ} {rest : List UInt8} {v : ℕ}
    (h : Base128.decode k (read m p k) = some (v, rest)) (len value multiplier : ℕ) :
    decodeLoop (bufchar m) k p len value multiplier =
      (p + (k - rest.length), len + (k - rest.length), value + v * multiplier) ∧
      rest.length < k := by
  induction k generalizing p v len value multiplier with
  | zero => cases h
  | succ k ih =>
    have hchar : bufchar m p = (p + 1, 1, m p) := rfl
    rw [ByteMem.read, Base128.decode] at h
    rw [decodeLoop_read hchar]
    split_ifs at h ⊢ with hb
    · obtain ⟨rfl, rfl⟩ := Prod.mk.inj (Option.some.inj h)
      simp
    · obtain ⟨⟨u, r⟩, hr, he⟩ := Option.map_eq_some_iff.mp h
      obtain ⟨rfl, rfl⟩ := Prod.mk.inj he
      obtain ⟨hloop, hlt⟩ := ih hr (len + 1) (value + ((m p).toNat - 128) * multiplier)
        (multiplier * 128)
      dsimp only at hlt ⊢
      rw [hloop]
      refine ⟨?_, by omega⟩
      ext
      · dsimp only
        omega
      · dsimp only
        omega
      · dsimp only
        ring

theorem packetDecodeBuf_of_holds (hn : n < 128 ^ 4) (h : Holds m p (Base128.encode n)) :
    packetDecodeBuf m p = ((Base128.encode n).length, n) := by
  have hlen : (Base128.encode n).length ≤ 4 := (Base128.length_encode_le_iff n 3).mpr hn
  have hsplit := read_append m p (Base128.encode n).length (4 - (Base128.encode n).length)
  rw [h.read_eq, Nat.add_sub_cancel' hlen] at hsplit
  have hdec := Base128.decode_encode hn
    (read m (p + (Base128.encode n).length) (4 - (Base128.encode n).length))
  rw [← hsplit] at hdec
  have hloop := (decodeLoop_bufchar hdec 0 0 1).1
  unfold packetDecodeBuf packetDecode maxNoOfRemainingLengthBytes
  rw [hloop, length_read]
  ext
  · dsimp only
    omega
  · dsimp only
    ring

theorem readInt_of_holds (hn : n < 2 ^ 16) (h : Holds m p (int16 n)) : readInt m p = (n, p + 2) := by
  obtain ⟨hhi, hlo, -⟩ := h
  unfold readInt
  rw [hhi, hlo, Base128.toNat_digit (by omega), Base128.toNat_digit (by omega)]
  congr 1
  omega

theorem readMQTTLenString_of_holds {enddata : ℕ} (hlen : string.length < 2 ^ 16)
    (h : Holds m p (lenString string)) (hend : p + (lenString string).length ≤ enddata) :
    readMQTTLenString m s p enddata =
      (true, ⟨none, ⟨string.length, p + 2⟩⟩, p + (lenString string).length) := by
  have hwire := length_lenString string
  have hint := readInt_of_holds hlen (holds_append.mp h).1
  rw [hwire] at hend ⊢
  unfold readMQTTLenString
  rw [if_pos (by omega), hint, if_pos (by dsimp only; omega), Nat.add_assoc]

theorem chars_of_holds (h : Holds m p (lenString string)) :
    MQTTString.chars m ⟨none, ⟨string.length, p + 2⟩⟩ = string := by
  have hstring : Holds m (p + 2) string := (holds_append.mp h).2
  unfold MQTTString.chars
  split_ifs with hpos
  · exact hstring.read_eq
  · have hnil : string.length = 0 := by
      dsimp only at hpos
      omega
    rw [List.length_eq_zero_iff.mp hnil]
    rfl

namespace MQTTHeader

variable {type : ℕ} {dup retain : UInt8} {qos : ℤ}

theorem toNat_ofBits (type : ℕ) (dup : UInt8) (qos : ℤ) (retain : UInt8) :
    (ofBits type dup qos retain).toNat =
      type % 16 * 16 + dup.toNat % 2 * 8 + (qos % 4).toNat * 2 + retain.toNat % 2 := by
  unfold ofBits
  exact Base128.toNat_digit (by omega)

@[simp] theorem type_ofBits : MQTTHeader.type (ofBits type dup qos retain) = type % 16 := by
  unfold MQTTHeader.type
  rw [toNat_ofBits]
  omega

@[simp] theorem dup_ofBits : MQTTHeader.dup (ofBits type dup qos retain) = dup.toNat % 2 := by
  unfold MQTTHeader.dup
  rw [toNat_ofBits]
  omega

@[simp] theorem qos_ofBits : MQTTHeader.qos (ofBits type dup qos retain) = (qos % 4).toNat := by
  unfold MQTTHeader.qos
  rw [toNat_ofBits]
  omega

@[simp] theorem retain_ofBits : MQTTHeader.retain (ofBits type dup qos retain) = retain.toNat % 2 := by
  unfold MQTTHeader.retain
  rw [toNat_ofBits]
  omega

end MQTTHeader

/-- The remaining lengths for which `MQTTPacket_len` counts one byte more than there is. -/
def overestimated : List ℕ := [127, 16383, 2097150, 2097151]

/-- `MQTTPacket_len` against the size of the packet: the header byte is counted before the remaining length
is compared. -/
theorem packetLen_eq (h : n < 128 ^ 4) :
    packetLen n = 1 + (Base128.encode n).length + n + if n ∈ overestimated then 1 else 0 := by
  have hlen := Base128.length_encode_le_iff n
  have hpos := Base128.length_encode_pos n
  have h1 := hlen 0
  have h2 := hlen 1
  have h3 := hlen 2
  have h4 := hlen 3
  unfold packetLen overestimated
  simp only [List.mem_cons, List.not_mem_nil, or_false]
  norm_num at h h1 h2 h3 h4
  split_ifs
  all_goals omega

theorem length_frame_le_packetLen (header : UInt8) (h : bs.length < 128 ^ 4) :
    ((Base128.frame header bs).length : ℤ) ≤ packetLen bs.length := by
  have hlen := packetLen_eq h
  rw [hlen, Base128.frame, List.length_cons, List.length_append]
  split_ifs
  all_goals omega

/-- The result of a serializer that refuses a short buffer and else writes a packet to its start. -/
def Serializes (m : Mem) (buf : ℕ) (buflen : ℤ) (header : UInt8) (body : List UInt8) (r : Mem × ℤ) : Prop :=
  r = if buflen < packetLen body.length then (m, bufferTooShort)
    else (write m buf (Base128.frame header body), ((Base128.frame header body).length : ℤ))

/-- A packet that is written lies in the buffer, and arrives where its bytes are copied to. -/
theorem Serializes.sent {buflen : ℤ} {header : UInt8} {body : List UInt8} {r : Mem × ℤ}
    (h : Serializes m buf buflen header body r) (hlen : body.length < 128 ^ 4) (hok : 0 < r.2) :
    r.2 ≤ buflen ∧ r.2.toNat = (Base128.frame header body).length ∧
      (∀ x, x < buf ∨ buf + r.2.toNat ≤ x → r.1 x = m x) ∧
      ∀ m' p, read m' p r.2.toNat = read r.1 buf r.2.toNat → Holds m' p (Base128.frame header body) := by
  obtain ⟨packet, hpacket⟩ : ∃ packet, packet = Base128.frame header body := ⟨_, rfl⟩
  unfold Serializes at h
  rw [← hpacket] at h ⊢
  split_ifs at h with hshort
  · subst h
    have hneg : ¬ (0 : ℤ) < bufferTooShort := by decide
    exact absurd hok hneg
  · subst h
    have hsize : (packet.length : ℤ) ≤ packetLen body.length := by
      rw [hpacket]
      exact length_frame_le_packetLen header hlen
    exact ⟨by dsimp only; omega, rfl, fun x hx => write_of_disjoint hx, fun m' p => holds_of_copy⟩

end EmbeddedTemplate.Mqtt
