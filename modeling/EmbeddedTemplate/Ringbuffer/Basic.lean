import EmbeddedTemplate.Lib.Circular
import EmbeddedTemplate.Lib.Word

/-! The byte ring buffer of `ringbuffer.c`. `RINGBUFFER_SIZE_TYPE` is `uint16_t`, so
every increment and decrement is reduced modulo `2 ^ 16`. A `Ringbuffer` is the record
behind a valid handle; the null guards of the source return 0 and touch nothing. -/
namespace EmbeddedTemplate

/-- `struct ringbuffer`. The storage is total in its index: a store outside the
capacity is not silently dropped. -/
structure Ringbuffer where
  cap : ℕ
  len : ℕ
  inIdx : ℕ
  out : ℕ
  buf : ℕ → UInt8

namespace Ringbuffer

/-- Conversion of an `int` result to `RINGBUFFER_SIZE_TYPE`. -/
def size16 (n : ℤ) : ℕ := Word.wrap 16 n

def clear (rb : Ringbuffer) : Ringbuffer := { rb with len := 0, inIdx := 0, out := 0 }

def init (buf : ℕ → UInt8) (len : ℕ) : Ringbuffer :=
  { cap := len, len := 0, inIdx := 0, out := 0, buf }

/-- Loop body shared by `ringbuffer_put` and `ringbuffer_try_write`. -/
def store (rb : Ringbuffer) (uch : UInt8) : Ringbuffer :=
  let next := size16 (rb.inIdx + 1)
  { rb with
    buf := Function.update rb.buf rb.inIdx uch
    inIdx := if rb.cap ≤ next then 0 else next
    len := size16 (rb.len + 1) }

/-- Loop body shared by the read functions: advance `out` and decrement `len`. The
byte itself is `rb.buf rb.out`. -/
def drop (rb : Ringbuffer) : Ringbuffer :=
  let next := size16 (rb.out + 1)
  { rb with
    out := if rb.cap ≤ next then 0 else next
    len := size16 ((rb.len : ℤ) - 1) }

/-- The `for` loop of `ringbuffer_try_write`, over the bytes still to be written. -/
def writeLoop : List UInt8 → ℕ → Ringbuffer → ℕ × Ringbuffer
  | [], i, rb => (i, rb)
  | uch :: dat, i, rb =>
    if rb.len < rb.cap then writeLoop dat (size16 (i + 1)) (rb.store uch) else (i, rb)

/-- `ringbuffer_put` runs the same loop with one byte repeated. -/
def put (rb : Ringbuffer) (uch : UInt8) (len : ℕ) : ℕ × Ringbuffer :=
  writeLoop (List.replicate len uch) 0 rb

/-- The length argument is the length of `dat`. -/
def tryWrite (rb : Ringbuffer) (dat : List UInt8) : ℕ × Ringbuffer := writeLoop dat 0 rb

/-- `RINGBUFFER_SIZE_TYPE` is narrower than `int`: the subtraction does not wrap. -/
def write (rb : Ringbuffer) (dat : List UInt8) : ℕ × Ringbuffer :=
  if (rb.cap : ℤ) - rb.len < dat.length then (0, rb) else rb.tryWrite dat

/-- What a read leaves behind: its return value, the bytes stored through the
destination pointer in order, and the ring buffer. -/
structure ReadResult where
  ret : ℕ
  bytes : List UInt8
  rb : Ringbuffer

/-- The `for` loop of the read functions, with `n` iterations left. A byte that
satisfies `stop` is delivered and ends the loop. -/
def readLoop (stop : UInt8 → Bool) : ℕ → ℕ → Ringbuffer → ReadResult
  | 0, i, rb => ⟨i, [], rb⟩
  | n + 1, i, rb =>
    if 0 < rb.len then
      let c := rb.buf rb.out
      if stop c then ⟨size16 (i + 1), [c], rb.drop⟩
      else
        let r := readLoop stop n (size16 (i + 1)) rb.drop
        { r with bytes := c :: r.bytes }
    else ⟨i, [], rb⟩

def tryRead (rb : Ringbuffer) (len : ℕ) : ReadResult := readLoop (fun _ => false) len 0 rb

def tryReadUtil (rb : Ringbuffer) (len : ℕ) (term : UInt8) : ReadResult :=
  readLoop (fun c => c == term) len 0 rb

/-- The guard compares the free space with `len`, as in `ringbuffer_write`. -/
def read (rb : Ringbuffer) (len : ℕ) : ReadResult :=
  if (rb.cap : ℤ) - rb.len < len then ⟨0, [], rb⟩ else rb.tryRead len

def getLeftSpace (rb : Ringbuffer) : ℕ := size16 ((rb.cap : ℤ) - rb.len)

/-- `pop_char`; `none` is its result 0. -/
def popChar (rb : Ringbuffer) : Option (UInt8 × Ringbuffer) :=
  if rb.len = 0 then none else some (rb.buf rb.out, rb.drop)

/-- The `do` loop of `ringbuffer_read_string`. Every round takes a byte out, so `len + 1`
rounds reach its end. The destination may be NULL (`dst = false`). -/
def readStringLoop (dst : Bool) (bufSize : ℕ) : ℕ → ℕ → Ringbuffer → ReadResult
  | 0, ret, rb => ⟨ret, [], rb⟩
  | n + 1, ret, rb =>
    match rb.popChar with
    | none => ⟨ret, [], rb⟩
    | some (chr, rb) =>
      let saved := dst && decide (ret < bufSize)
      let ret := if saved then size16 (ret + 1) else ret
      let r := if chr = 0 then ⟨ret, [], rb⟩ else readStringLoop dst bufSize n ret rb
      { r with bytes := if saved then chr :: r.bytes else r.bytes }

def readString (rb : Ringbuffer) (dst : Bool) (bufSize : ℕ) : ReadResult :=
  readStringLoop dst bufSize (rb.len + 1) 0 rb

/-- What `ringbuffer_read_string_and_is_with_prefix` leaves behind: its return value,
`*size`, the bytes stored through `buf` in order, and the ring buffer. -/
structure PrefixResult where
  ret : Bool
  size : ℕ
  bytes : List UInt8
  rb : Ringbuffer

/-- The rest of the record, read to `&buf[saved]`. -/
def readRest (rb : Ringbuffer) (ret dst : Bool) (size saved : ℕ) : PrefixResult :=
  let r := rb.readString dst (size16 ((size : ℤ) - saved))
  ⟨ret, size16 (saved + r.ret : ℕ), r.bytes, r.rb⟩

def prefixLoop (dst : Bool) (size : ℕ) : List UInt8 → UInt8 → ℕ → Ringbuffer → PrefixResult
  | [], chr, saved, rb =>
    if chr ≠ 0 then rb.readRest true dst size saved
    else ⟨true, saved, if dst && decide (saved < size) then [0] else [], rb⟩
  | pe :: pes, _, saved, rb =>
    match rb.popChar with
    | none => ⟨false, saved, [], rb⟩
    | some (chr, rb) =>
      let store := dst && decide (saved < size)
      let saved := if store then size16 (saved + 1) else saved
      let r :=
        if pe ≠ chr then
          if chr ≠ 0 then rb.readRest false dst size saved else ⟨false, saved, [], rb⟩
        else prefixLoop dst size pes chr saved rb
      { r with bytes := if store then chr :: r.bytes else r.bytes }

/-- `ringbuffer_read_string_and_is_with_prefix` with a valid `size`. The prefix is NULL or
the characters of a string before its NUL. -/
def readStringAndIsWithPrefix (rb : Ringbuffer) (pre : Option (List UInt8)) (dst : Bool)
    (size : ℕ) : PrefixResult :=
  match pre with
  | none =>
    let r := rb.readString dst size
    ⟨decide (0 < r.ret), r.ret, r.bytes, r.rb⟩
  | some pre => prefixLoop dst size pre 1 0 rb

/-- `ringbuffer_drop_from_tail`. It raises `size` to `len` where a bound would lower it. -/
def dropFromTail (rb : Ringbuffer) (size : ℕ) : ℕ × Ringbuffer :=
  if size = 0 then (0, rb)
  else
    let size := if size < rb.len then rb.len else size
    let out := if rb.out < size then size16 ((rb.out : ℤ) + rb.cap - size) else rb.out - size
    (size, { rb with out, len := size16 ((rb.len : ℤ) - size) })

def dropFromHead (rb : Ringbuffer) (size : ℕ) : ℕ × Ringbuffer :=
  let size := if size < rb.len then rb.len else size
  let next := size16 (rb.inIdx + size : ℕ)
  let inIdx := if rb.cap ≤ next then next - rb.cap else next
  (size, { rb with inIdx, len := size16 ((rb.len : ℤ) - size) })

end Ringbuffer
end EmbeddedTemplate
