import EmbeddedTemplate.Atcmd.Send
import Mathlib.Algebra.GroupWithZero.Nat

/-! What the two sending functions write to the serial port, and which lines of the modem
they have read when they report success. -/
namespace EmbeddedTemplate.Atcmd.Send

open Ringbuffer (record)
open Transition

def Event.sentBytes : Event → List UInt8
  | .sent bytes => bytes
  | .got _ | .line _ => []

def Event.gotBytes : Event → List UInt8
  | .got bytes => bytes
  | .sent _ | .line _ => []

def written (log : List Event) : List UInt8 := log.flatMap Event.sentBytes

def given (log : List Event) : List UInt8 := log.flatMap Event.gotBytes

/-- A stretch of the log from one `AT+QISEND` to the next one: the number announced and the
data behind it. -/
structure Chunk where
  n : ℕ
  data : List UInt8
  events : List Event

inductive Job where
  | tcp (dat : List UInt8)
  | cb (totalLen : ℕ)

/-- `AT+QISEND=<n>\r`, and the data padded with zeros to `n` bytes. -/
def frame (n : ℕ) (data : List UInt8) : List UInt8 :=
  qisend n ++ [Atcmd.carriageReturn] ++ data ++ List.replicate (n - data.length) 0

def Chunk.Sent (job : Job) (c : Chunk) : Prop :=
  written c.events = frame c.n c.data ∧ match job with
    | .tcp dat => c.n = dat.length ∧ c.data = dat
    | .cb _ => 1 ≤ c.n ∧ c.n ≤ 1320 ∧ c.data.length ≤ c.n ∧ given c.events = c.data

/-- The line `SEND OK` was read behind the last byte of the chunk. -/
def Chunk.Confirmed (c : Chunk) : Prop :=
  ∃ pre post, c.events = pre ++ post ∧ written post = [] ∧ .line (sendOk ++ [0]) ∈ post

def announced (chunks : List Chunk) : ℕ := (chunks.map Chunk.n).sum

def Job.Finished (chunks : List Chunk) : Job → Prop
  | .tcp _ => ∃ c, chunks = [c]
  | .cb totalLen => announced chunks = totalLen

variable (job : Job) (chunks : List Chunk) (cur : List Event)

/-- With the chunk of `n` bytes that is under way, `sent` bytes are announced. -/
def Announced (n sent totalLen : ℕ) : Prop :=
  job = .cb totalLen ∧ announced chunks + n = sent ∧ sent ≤ totalLen ∧ 1 ≤ n ∧ n ≤ 1320

def Body.Ok (n : ℕ) : Body → Prop
  | .tcp dat _ => job = .tcp dat ∧ chunks = [] ∧ n = dat.length
  | .cb thisLen sent totalLen => Announced job chunks n sent totalLen ∧ thisLen = n

def Caller.Ok (n : ℕ) : Caller → Prop
  | .tcp => ∃ dat, job = .tcp dat ∧ chunks = []
  | .cb sent totalLen => job = .cb totalLen ∧ announced chunks + n = sent ∧ sent ≤ totalLen

/-- The chunk under way is sent, and the lines `post` were read since. -/
def Waiting (caller : Caller) (post : List Event) : Prop :=
  ∃ n data pre, cur = pre ++ post ∧ Chunk.Sent job ⟨n, data, pre⟩ ∧ written post = [] ∧
    given post = [] ∧ caller.Ok job chunks n

def Pc.Ok (strict : Prop) (buf : ℕ → UInt8) : Pc → Prop
  | .tcp dat _ => job = .tcp dat ∧ chunks = [] ∧ cur = []
  | .top sent totalLen => job = .cb totalLen ∧ cur = [] ∧ announced chunks = sent ∧ sent ≤ totalLen
  | .clearRb _ body | .clearSem _ body | .command body =>
    cur = [] ∧ ∃ n, body.Ok job chunks n ∧ string buf = qisend n ∧ buf 0 ≠ 0
  | .carriageReturn body => ∃ n, body.Ok job chunks n ∧ written cur = qisend n ∧ given cur = []
  | .sleep body =>
    ∃ n, body.Ok job chunks n ∧ written cur = qisend n ++ [Atcmd.carriageReturn] ∧ given cur = []
  | .data (.tcp dat _) =>
    job = .tcp dat ∧ chunks = [] ∧ written cur = qisend dat.length ++ [Atcmd.carriageReturn]
  | .data (.cb thisLen sent totalLen) => ∃ n, Announced job chunks n sent totalLen ∧
    written cur = qisend n ++ [Atcmd.carriageReturn] ++ given cur ∧ (given cur).length + thisLen = n
  | .pad thisLen sent totalLen => ∃ n zeros, Announced job chunks n sent totalLen ∧
    written cur = qisend n ++ [Atcmd.carriageReturn] ++ given cur ++ List.replicate zeros 0 ∧
    (given cur).length + zeros + thisLen = n
  | .arm sent totalLen => Waiting job chunks cur (.cb sent totalLen) []
  | .reply caller _ | .expect caller _ _ | .expectTest caller _ _ _ | .pend caller _ _
  | .read caller _ _ | .expectNext caller _ _ => ∃ post, Waiting job chunks cur caller post
  | .compare caller _ => ∃ post line, Waiting job chunks cur caller (post ++ [.line line]) ∧
    (strict → strcmp sendOk buf = true → line = sendOk ++ [0])
  | .done ret => cur = [] ∧ (ret = true → job.Finished chunks)

/-- The log as chunks and the events `cur` of the one under way. With `strict`, the chunks
that the call has left behind are confirmed. -/
structure Inv (strict : Prop) (s : State) : Prop where
  log_eq : s.log = chunks.flatMap Chunk.events ++ cur
  sent : ∀ c ∈ chunks, c.Sent job
  confirmed : strict → s.pc.returned ≠ some false → ∀ c ∈ chunks, c.Confirmed
  rb : strict → s.atcmd.rb.Inv
  pc : s.pc.Ok job chunks cur strict s.buf

/-- What a call is asked to send is counted in 16 bits. -/
def Job.Small : Job → Prop
  | .tcp dat => dat.length < 2 ^ 16
  | .cb totalLen => totalLen < 2 ^ 16

def Pc.replyDeadline : Pc → Option ℕ
  | .reply _ deadline => some deadline
  | .tcp _ _ | .top _ _ | .clearRb _ _ | .clearSem _ _ | .command _ | .carriageReturn _ | .sleep _
  | .data _ | .pad _ _ _ | .arm _ _ | .expect _ _ _ | .expectTest _ _ _ _ | .pend _ _ _
  | .read _ _ _ | .expectNext _ _ _ | .compare _ _ | .done _ => none

def Pc.reads : Pc → Bool
  | .read _ _ _ => true
  | .tcp _ _ | .top _ _ | .clearRb _ _ | .clearSem _ _ | .command _ | .carriageReturn _ | .sleep _
  | .data _ | .pad _ _ _ | .arm _ _ | .reply _ _ | .expect _ _ _ | .expectTest _ _ _ _
  | .pend _ _ _ | .expectNext _ _ _ | .compare _ _ | .done _ => false

/-- The reply loop is not left by its time test, and a read finds a complete line. -/
def Answered (s : State) : Act → Prop
  | .time t => ∀ deadline ∈ s.pc.replyDeadline, t.toNat < deadline
  | .go => s.pc.reads = true → 0 ∈ s.atcmd.rb.content
  | _ => True

instance Answered.decidable (s : State) : ∀ a, Decidable (Answered s a)
  | .time t => inferInstanceAs (Decidable (∀ deadline ∈ s.pc.replyDeadline, t.toNat < deadline))
  | .go => inferInstanceAs (Decidable (s.pc.reads = true → 0 ∈ s.atcmd.rb.content))
  | .byte _ _ _ | .get _ _ | .pend _ => isTrue trivial

variable {job chunks cur} {strict : Prop} {s s' : State} {buf : ℕ → UInt8} {n : ℕ}

@[simp] theorem written_append (k l : List Event) : written (k ++ l) = written k ++ written l :=
  List.flatMap_append

@[simp] theorem given_append (k l : List Event) : given (k ++ l) = given k ++ given l :=
  List.flatMap_append

@[simp] theorem written_sent (bytes : List UInt8) : written [.sent bytes] = bytes :=
  List.append_nil bytes

@[simp] theorem given_sent (bytes : List UInt8) : given [.sent bytes] = [] := rfl

@[simp] theorem written_got_sent (bytes : List UInt8) : written [.got bytes, .sent bytes] = bytes :=
  List.append_nil bytes

@[simp] theorem given_got_sent (bytes : List UInt8) : given [.got bytes, .sent bytes] = bytes :=
  List.append_nil bytes

theorem range_map_fill (buf : ℕ → UInt8) {bytes : List UInt8} {k : ℕ} (hk : k ≤ bytes.length) :
    (List.range k).map (fill buf bytes) = bytes.take k := by
  apply List.ext_getElem
  · simp [hk]
  · intro i hi hi'
    simp only [List.length_map, List.length_range] at hi
    simp [fill, List.getD_eq_getElem?_getD, List.getElem?_eq_getElem (show i < bytes.length by omega)]

theorem qisend_ne_zero (n : ℕ) : 0 ∉ qisend n := by
  unfold qisend
  rw [List.mem_append, not_or]
  refine ⟨by decide, ?_⟩
  intro h0
  obtain ⟨c, hc, hzero⟩ := List.mem_map.mp h0
  have hdigit := Nat.isDigit_of_mem_toDigits (by decide) (by decide) hc
  have hbounds : 48 ≤ c.toNat ∧ c.toNat ≤ 57 := by
    simpa [Char.isDigit, UInt32.le_iff_toNat_le] using hdigit
  have hmod : c.toNat % 2 ^ 8 = 0 := by
    rw [← UInt8.toNat_ofNat']
    exact congrArg UInt8.toNat hzero
  omega

theorem length_qisend {n : ℕ} (hn : n < 2 ^ 16) : (qisend n).length ≤ 15 := by
  have hlen : (Nat.toDigits 10 n).length ≤ 5 :=
    (Nat.length_toDigits_le_iff (by decide) (by decide)).mpr (by omega)
  simp [qisend]
  omega

theorem string_fill_qisend (buf : ℕ → UInt8) {n : ℕ} (hn : n < 2 ^ 16) :
    string (fill buf (qisend n ++ [0])) = qisend n ∧ fill buf (qisend n ++ [0]) 0 ≠ 0 := by
  have hlen := length_qisend hn
  have hne : ∀ b ∈ qisend n, decide (b ≠ 0) = true := by
    intro b hb
    rw [decide_eq_true_iff]
    rintro rfl
    exact qisend_ne_zero n hb
  constructor
  · have hsplit : (List.range 20).map (fill buf (qisend n ++ [0])) =
        qisend n ++ 0 :: ((List.range (19 - (qisend n).length)).map
          ((qisend n ++ [0]).length + ·)).map (fill buf (qisend n ++ [0])) := by
      have hrange : 20 = (qisend n ++ [0]).length + (19 - (qisend n).length) := by
        rw [List.length_append, List.length_singleton]
        omega
      conv_lhs => rw [hrange, List.range_add, List.map_append, range_map_fill buf le_rfl,
        List.take_length]
      simp
    unfold string
    rw [hsplit, List.takeWhile_append_of_pos hne]
    simp
  · exact (by decide : (65 : UInt8) ≠ 0)

theorem record_eq_of_mem {q : List UInt8} (h : 0 ∈ q) : ∃ l, record q = l ++ [0] ∧ 0 ∉ l := by
  induction q with
  | nil => cases h
  | cons b q ih =>
    rw [Ringbuffer.record_cons]
    by_cases hb : b = 0
    · rw [if_pos hb]
      exact ⟨[], by rw [hb]; rfl, by simp⟩
    · rw [if_neg hb]
      obtain ⟨l, hl, h0⟩ := ih (List.mem_of_ne_of_mem (Ne.symm hb) h)
      refine ⟨b :: l, by rw [hl]; rfl, ?_⟩
      simpa using ⟨Ne.symm hb, h0⟩

/-- A complete line that makes `buf` equal to `s` is `s`, whatever `buf` held before. -/
theorem line_of_strcmp {s l : List UInt8} (hs : 0 ∉ s) (hlen : s.length < 20) (hl : 0 ∉ l)
    (h : strcmp s (fill buf ((l ++ [0]).take 20)) = true) : l ++ [0] = s ++ [0] := by
  have heq : (List.range (s.length + 1)).map (fill buf ((l ++ [0]).take 20)) = s ++ [0] := by
    simpa [strcmp] using h
  rcases Nat.lt_trichotomy l.length s.length with hlt | hlen' | hlt
  · -- the line ends inside `s`
    have htake := congrArg (List.take (l.length + 1)) heq
    rw [← List.map_take, List.take_range, Nat.min_eq_left (by omega),
      range_map_fill buf (by simp; omega), List.take_take, Nat.min_eq_left (by omega),
      List.take_of_length_le (by simp), List.take_append_of_le_length (by omega)] at htake
    exact absurd (List.mem_of_mem_take (htake ▸ List.mem_append_right l (by simp))) hs
  · rwa [range_map_fill buf (by simp; omega), List.take_take, Nat.min_eq_left (by omega),
      List.take_of_length_le (by simp; omega)] at heq
  · rw [range_map_fill buf (by simp; omega), List.take_take, Nat.min_eq_left (by omega),
      List.take_append_of_le_length (by omega)] at heq
    exact absurd (List.mem_of_mem_take (heq ▸ List.mem_append_right s (by simp))) hl

/-- The lines read so far do not count for the bytes of the chunk. -/
theorem Waiting.sent {caller : Caller} {post : List Event} (h : Waiting job chunks cur caller post) :
    ∃ n data, Chunk.Sent job ⟨n, data, cur⟩ ∧ caller.Ok job chunks n := by
  obtain ⟨n, data, pre, rfl, ⟨hbytes, hjob⟩, hwritten, hgiven, hcaller⟩ := h
  refine ⟨n, data, ⟨?_, ?_⟩, hcaller⟩
  · rw [written_append, hwritten, List.append_nil]
    exact hbytes
  · cases job with
    | tcp dat => exact hjob
    | cb totalLen =>
      obtain ⟨h1, h2, h3, h4⟩ := hjob
      refine ⟨h1, h2, h3, ?_⟩
      rw [given_append, hgiven, List.append_nil]
      exact h4

theorem Waiting.line {caller : Caller} {post : List Event} (h : Waiting job chunks cur caller post)
    (line : List UInt8) : Waiting job chunks (cur ++ [.line line]) caller (post ++ [.line line]) := by
  obtain ⟨n, data, pre, rfl, hsent, hwritten, hgiven, hcaller⟩ := h
  refine ⟨n, data, pre, List.append_assoc _ _ _, hsent, ?_, ?_, hcaller⟩
  · rw [written_append, hwritten]
    rfl
  · rw [given_append, hgiven]
    rfl

namespace Inv

theorem goto (h : Inv job chunks cur strict s) (hrun : s.pc.returned = none) {atcmd : Atcmd} {pc : Pc}
    (hrb : strict → atcmd.rb.Inv) (hpc : pc.Ok job chunks cur strict buf) :
    Inv job chunks cur strict { s with atcmd, buf, pc } where
  log_eq := h.log_eq
  sent := h.sent
  confirmed hstrict _ := h.confirmed hstrict (by simp [hrun])
  rb := hrb
  pc := hpc

theorem extend (h : Inv job chunks cur strict s) (hrun : s.pc.returned = none) {atcmd : Atcmd} {pc : Pc}
    {events : List Event} (hrb : strict → atcmd.rb.Inv)
    (hpc : pc.Ok job chunks (cur ++ events) strict buf) :
    Inv job chunks (cur ++ events) strict { s with atcmd, buf, pc, log := s.log ++ events } where
  log_eq := by rw [h.log_eq, List.append_assoc]
  sent := h.sent
  confirmed hstrict _ := h.confirmed hstrict (by simp [hrun])
  rb := hrb
  pc := hpc

theorem close (h : Inv job chunks cur strict s) (hrun : s.pc.returned = none) {c : Chunk} {pc : Pc}
    (hevents : c.events = cur) (hsent : c.Sent job)
    (hc : strict → pc.returned ≠ some false → c.Confirmed)
    (hpc : pc.Ok job (chunks ++ [c]) [] strict s.buf) :
    Inv job (chunks ++ [c]) [] strict { s with pc } where
  log_eq := by
    rw [h.log_eq, List.flatMap_append, List.flatMap_singleton, hevents, List.append_nil]
  sent c' hc' := by
    rcases List.mem_append.mp hc' with hc' | hc'
    · exact h.sent c' hc'
    · rw [List.mem_singleton.mp hc']
      exact hsent
  confirmed hstrict hret c' hc' := by
    rcases List.mem_append.mp hc' with hc' | hc'
    · exact h.confirmed hstrict (by simp [hrun]) c' hc'
    · rw [List.mem_singleton.mp hc']
      exact hc hstrict hret
  rb := h.rb
  pc := hpc

theorem fail (h : Inv job chunks cur strict s) (hrun : s.pc.returned = none) {caller : Caller}
    {post : List Event} (hw : Waiting job chunks cur caller post) :
    ∃ chunks' cur', Inv job chunks' cur' strict { s with pc := .done false } := by
  obtain ⟨n, data, hsent, -⟩ := hw.sent
  exact ⟨_, _, h.close hrun (c := ⟨n, data, cur⟩) rfl hsent (fun _ hret => absurd rfl hret)
    ⟨rfl, fun hret => by cases hret⟩⟩

/-- The reply loop is left, with `SEND OK` in hand when that counts. -/
theorem leave (h : Inv job chunks cur strict s) (hrun : s.pc.returned = none) {caller : Caller}
    {post : List Event} (hw : Waiting job chunks cur caller post)
    (hok : strict → .line (sendOk ++ [0]) ∈ post) :
    ∃ chunks' cur', Inv job chunks' cur' strict { s with pc := caller.leave } := by
  have hconf : strict → ∀ n data, Chunk.Confirmed ⟨n, data, cur⟩ := by
    intro hstrict n data
    obtain ⟨-, -, pre, hcur, -, hwritten, -⟩ := hw
    exact ⟨pre, post, hcur, hwritten, hok hstrict⟩
  obtain ⟨n, data, hsent, hcaller⟩ := hw.sent
  refine ⟨_, _, h.close hrun (c := ⟨n, data, cur⟩) rfl hsent (fun hstrict _ => hconf hstrict n data) ?_⟩
  cases caller with
  | tcp =>
    obtain ⟨dat, rfl, rfl⟩ := hcaller
    exact ⟨rfl, fun _ => ⟨_, rfl⟩⟩
  | cb sent totalLen =>
    obtain ⟨hjob, hsum, hle⟩ := hcaller
    refine ⟨hjob, rfl, ?_, hle⟩
    simp only [announced, List.map_append, List.map_cons, List.map_nil, List.sum_append,
      List.sum_cons, List.sum_nil] at hsum ⊢
    omega

theorem byte (h : Inv job chunks cur strict s) (b : UInt8) (t now : ℕ) :
    Inv job chunks cur strict { s with atcmd := recvSerialByte s.atcmd b t now } := by
  refine ⟨h.log_eq, h.sent, h.confirmed, fun hstrict => ?_, h.pc⟩
  have hrb := h.rb hstrict
  obtain ⟨heq, -⟩ | ⟨-, ⟨-, heq, -⟩ | ⟨-, heq, -⟩ | ⟨-, heq, -⟩⟩ := recvSerialByte_cases s.atcmd b t now
  · exact heq ▸ hrb
  · exact heq ▸ (put_one_spec hrb 0).1
  · exact heq ▸ Ringbuffer.clear_inv hrb
  · exact heq ▸ (put_one_spec hrb b).1

theorem time (h : Inv job chunks cur strict s) (hjob : job.Small) {t : UInt32}
    (ht : strict → Answered s (.time t)) (hs : timeStep s t.toNat = some s') :
    ∃ chunks' cur', Inv job chunks' cur' strict s' := by
  have hok := h.pc
  cases hpc : s.pc with
  | tcp dat timeoutMs =>
    simp only [hpc, Pc.Ok] at hok
    simp only [timeStep, hpc] at hs
    cases hs
    obtain ⟨rfl, rfl, rfl⟩ := hok
    obtain ⟨hstring, hne⟩ := string_fill_qisend s.buf hjob
    exact ⟨_, _, h.goto (by rw [hpc]; rfl) h.rb ⟨rfl, dat.length, ⟨rfl, rfl, rfl⟩, hstring, hne⟩⟩
  | arm sent totalLen =>
    simp only [hpc, Pc.Ok] at hok
    simp only [timeStep, hpc] at hs
    cases hs
    exact ⟨_, _, h.goto (by rw [hpc]; rfl) h.rb ⟨_, hok⟩⟩
  | reply caller deadline =>
    simp only [hpc, Pc.Ok] at hok
    simp only [timeStep, hpc] at hs
    obtain ⟨post, hw⟩ := hok
    by_cases hlt : t.toNat < deadline
    · rw [if_pos hlt] at hs
      cases hs
      exact ⟨_, _, h.goto (by rw [hpc]; rfl) h.rb ⟨post, hw⟩⟩
    · rw [if_neg hlt] at hs
      cases hs
      exact h.leave (by rw [hpc]; rfl) hw fun hstrict =>
        absurd (ht hstrict deadline (by rw [hpc]; rfl)) hlt
  | expect | expectNext =>
    simp only [hpc, Pc.Ok] at hok
    simp only [timeStep, hpc] at hs
    cases hs
    exact ⟨_, _, h.goto (by rw [hpc]; rfl) h.rb hok⟩
  | top | clearRb | clearSem | command | carriageReturn | sleep | data | pad | expectTest | pend | read
  | compare | done =>
    simp only [timeStep, hpc] at hs
    cases hs

theorem get (h : Inv job chunks cur strict s) {stored : List UInt8} {i : ℕ}
    (hs : getStep s stored i = some s') : ∃ chunks' cur', Inv job chunks' cur' strict s' := by
  have hok := h.pc
  cases hpc : s.pc with
  | data body =>
    cases body with
    | tcp dat deadline =>
      simp only [getStep, hpc] at hs
      cases hs
    | cb thisLen sent totalLen =>
      simp only [hpc, Pc.Ok] at hok
      obtain ⟨n, hann, hwritten, hlen⟩ := hok
      simp only [getStep, hpc] at hs
      obtain ⟨⟨-, hi⟩, hs⟩ := Option.ite_none_right_eq_some.mp hs
      by_cases h0 : i = 0
      · rw [if_pos h0] at hs
        cases hs
        refine ⟨_, _, h.goto (by rw [hpc]; rfl) h.rb ⟨n, 0, hann, ?_, by omega⟩⟩
        rw [hwritten, List.replicate_zero, List.append_nil]
      · rw [if_neg h0] at hs
        cases hs
        refine ⟨_, _, h.extend (by rw [hpc]; rfl) h.rb ?_⟩
        have hbytes : ((List.range i).map (fill s.buf stored)).length = i := by simp
        split_ifs with hmore
        · refine ⟨n, hann, ?_, ?_⟩
          · rw [written_append, given_append, written_got_sent, given_got_sent, hwritten,
              List.append_assoc]
          · rw [given_append, given_got_sent, List.length_append, hbytes]
            omega
        · refine ⟨n, 0, hann, ?_, ?_⟩
          · rw [written_append, given_append, written_got_sent, given_got_sent, hwritten,
              List.append_assoc, List.replicate_zero, List.append_nil]
          · rw [given_append, given_got_sent, List.length_append, hbytes]
            omega
  | tcp | top | clearRb | clearSem | command | carriageReturn | sleep | pad | arm | reply | expect
  | expectTest | pend | read | expectNext | compare | done =>
    simp only [getStep, hpc] at hs
    cases hs

theorem pend (h : Inv job chunks cur strict s) {ok : Bool} (hs : pendStep s ok = some s') :
    ∃ chunks' cur', Inv job chunks' cur' strict s' := by
  have hok := h.pc
  cases hpc : s.pc with
  | pend caller deadline stop =>
    simp only [hpc, Pc.Ok] at hok
    simp only [pendStep, hpc] at hs
    cases ok with
    | false =>
      cases hs
      obtain ⟨post, hw⟩ := hok
      exact h.fail (by rw [hpc]; rfl) hw
    | true =>
      rw [if_pos rfl] at hs
      obtain ⟨-, hs⟩ := Option.ite_none_left_eq_some.mp hs
      cases hs
      exact ⟨_, _, h.goto (by rw [hpc]; rfl) h.rb hok⟩
  | tcp | top | clearRb | clearSem | command | carriageReturn | sleep | data | pad | arm | reply
  | expect | expectTest | read | expectNext | compare | done =>
    simp only [pendStep, hpc] at hs
    cases hs

theorem top (h : Inv job chunks cur strict s) (hjob : job.Small) {sent totalLen : ℕ}
    (hpc : s.pc = .top sent totalLen) (hs : goStep s = some s') :
    ∃ chunks' cur', Inv job chunks' cur' strict s' := by
  have hok := h.pc
  simp only [hpc, Pc.Ok] at hok
  obtain ⟨rfl, rfl, hsum, hle⟩ := hok
  have hsmall : totalLen < 2 ^ 16 := hjob
  simp only [goStep, hpc] at hs
  by_cases hlt : sent < totalLen
  · rw [if_pos hlt] at hs
    cases hs
    have hlen : ∀ thisLen, thisLen = (if 1320 < totalLen - sent then 1320 else totalLen - sent) →
        1 ≤ thisLen ∧ thisLen ≤ 1320 ∧ sent + thisLen ≤ totalLen := by
      rintro thisLen rfl
      split_ifs <;> omega
    obtain ⟨hone, hmax, htotal⟩ := hlen _ rfl
    obtain ⟨hstring, hne⟩ := string_fill_qisend s.buf
      (n := if 1320 < totalLen - sent then 1320 else totalLen - sent) (by omega)
    refine ⟨_, _, h.goto (by rw [hpc]; rfl) h.rb ⟨rfl, _, ⟨⟨rfl, ?_, ?_, hone, hmax⟩, rfl⟩, hstring, hne⟩⟩
    · rw [Nat.mod_eq_of_lt (by omega), hsum]
    · rw [Nat.mod_eq_of_lt (by omega)]
      exact htotal
  · rw [if_neg hlt] at hs
    cases hs
    exact ⟨_, _, h.goto (by rw [hpc]; rfl) h.rb ⟨rfl, fun _ => show announced chunks = totalLen by omega⟩⟩

theorem read (h : Inv job chunks cur strict s) {caller : Caller} {deadline stop : ℕ}
    (hpc : s.pc = .read caller deadline stop) (hline : strict → 0 ∈ s.atcmd.rb.content)
    (hs : goStep s = some s') : ∃ chunks' cur', Inv job chunks' cur' strict s' := by
  have hok := h.pc
  simp only [hpc, Pc.Ok] at hok
  obtain ⟨post, hw⟩ := hok
  simp only [goStep, hpc] at hs
  cases hs
  have hspec := fun hstrict => Ringbuffer.prefixLoop_spec true (by decide : 20 < 2 ^ 16)
    (List.not_mem_nil : (0 : UInt8) ∉ []) (h.rb hstrict) (by decide : (1 : UInt8) ≠ 0) (Nat.zero_le 20)
  refine ⟨_, _, h.extend (by rw [hpc]; rfl) (fun hstrict => (hspec hstrict).1) ?_⟩
  split_ifs
  · refine ⟨post, _, hw.line _, fun hstrict hcmp => ?_⟩
    obtain ⟨l, hrec, h0⟩ := record_eq_of_mem (hline hstrict)
    obtain ⟨-, -, -, hbytes, -⟩ := hspec hstrict
    have hb : (s.atcmd.rb.readStringAndIsWithPrefix (some []) true 20).bytes = (l ++ [0]).take 20 := by
      rw [← hrec]
      exact hbytes
    rw [hb] at hcmp
    rw [hrec]
    exact line_of_strcmp (by decide) (by decide) h0 hcmp
  · exact ⟨_, hw.line _⟩

theorem compare (h : Inv job chunks cur strict s) {caller : Caller} {deadline : ℕ}
    (hpc : s.pc = .compare caller deadline) (hs : goStep s = some s') :
    ∃ chunks' cur', Inv job chunks' cur' strict s' := by
  have hok := h.pc
  simp only [hpc, Pc.Ok] at hok
  obtain ⟨post, line, hw, hline⟩ := hok
  simp only [goStep, hpc] at hs
  split_ifs at hs with hsendOk
  · cases hs
    refine h.leave (by rw [hpc]; rfl) hw fun hstrict => ?_
    rw [hline hstrict hsendOk]
    simp
  · cases hs
    exact h.fail (by rw [hpc]; rfl) hw
  · cases hs
    exact h.fail (by rw [hpc]; rfl) hw
  · cases hs
    exact ⟨_, _, h.goto (by rw [hpc]; rfl) h.rb ⟨_, hw⟩⟩

theorem go (h : Inv job chunks cur strict s) (hjob : job.Small)
    (hline : strict → Answered s .go) (hs : goStep s = some s') :
    ∃ chunks' cur', Inv job chunks' cur' strict s' := by
  have hok := h.pc
  cases hpc : s.pc with
  | top => exact h.top hjob hpc hs
  | read => exact h.read hpc (fun hstrict => hline hstrict (by rw [hpc]; rfl)) hs
  | compare => exact h.compare hpc hs
  | clearRb again body =>
    simp only [hpc, Pc.Ok] at hok
    simp only [goStep, hpc] at hs
    cases hs
    exact ⟨_, _, h.goto (by rw [hpc]; rfl) (fun hstrict => Ringbuffer.clear_inv (h.rb hstrict)) hok⟩
  | clearSem again body =>
    simp only [hpc, Pc.Ok] at hok
    simp only [goStep, hpc] at hs
    cases hs
    cases again with
    | true => exact ⟨_, _, h.goto (by rw [hpc]; rfl) h.rb hok⟩
    | false => exact ⟨_, _, h.goto (by rw [hpc]; rfl) h.rb hok⟩
  | command body =>
    simp only [hpc, Pc.Ok] at hok
    obtain ⟨rfl, n, hbody, hstring, hne⟩ := hok
    simp only [goStep, hpc, if_neg hne, hstring] at hs
    cases hs
    exact ⟨_, _, h.extend (by rw [hpc]; rfl) h.rb ⟨n, hbody, by simp, by simp⟩⟩
  | carriageReturn body =>
    simp only [hpc, Pc.Ok] at hok
    obtain ⟨n, hbody, hwritten, hgiven⟩ := hok
    simp only [goStep, hpc] at hs
    cases hs
    exact ⟨_, _, h.extend (by rw [hpc]; rfl) h.rb ⟨n, hbody, by simp [hwritten], by simp [hgiven]⟩⟩
  | sleep body =>
    simp only [hpc, Pc.Ok] at hok
    obtain ⟨n, hbody, hwritten, hgiven⟩ := hok
    simp only [goStep, hpc] at hs
    cases hs
    refine ⟨_, _, h.goto (by rw [hpc]; rfl) h.rb ?_⟩
    cases body with
    | tcp dat deadline =>
      obtain ⟨htcp, hnil, rfl⟩ := hbody
      exact ⟨htcp, hnil, hwritten⟩
    | cb thisLen sent totalLen =>
      obtain ⟨hann, rfl⟩ := hbody
      exact ⟨thisLen, hann, by simp [hwritten, hgiven], by simp [hgiven]⟩
  | data body =>
    cases body with
    | tcp dat deadline =>
      simp only [hpc, Pc.Ok] at hok
      obtain ⟨rfl, hnil, hwritten⟩ := hok
      simp only [goStep, hpc] at hs
      cases hs
      refine ⟨_, _, h.extend (by rw [hpc]; rfl) h.rb
        ⟨[], dat.length, dat, _, (List.append_nil _).symm, ⟨?_, rfl, rfl⟩, rfl, rfl, dat, rfl, hnil⟩⟩
      simp [frame, hwritten]
    | cb thisLen sent totalLen =>
      simp only [goStep, hpc] at hs
      cases hs
  | pad thisLen sent totalLen =>
    simp only [hpc, Pc.Ok] at hok
    obtain ⟨n, zeros, hann, hwritten, hlen⟩ := hok
    simp only [goStep, hpc] at hs
    by_cases hmore : 0 < thisLen
    · rw [if_pos hmore] at hs
      cases hs
      refine ⟨_, _, h.extend (by rw [hpc]; rfl) h.rb ⟨n, zeros + 1, hann, ?_, ?_⟩⟩
      · rw [written_append, given_append, written_sent, given_sent, hwritten, List.append_nil,
          List.append_assoc, ← List.replicate_succ']
      · rw [given_append, given_sent, List.append_nil]
        omega
    · rw [if_neg hmore] at hs
      cases hs
      obtain ⟨rfl, hsum, hle, hone, hmax⟩ := hann
      refine ⟨_, _, h.goto (by rw [hpc]; rfl) h.rb ⟨n, given cur, cur, (List.append_nil _).symm,
        ⟨?_, hone, hmax, by simp only; omega, rfl⟩, rfl, rfl, rfl, hsum, hle⟩⟩
      simp only [frame]
      rw [hwritten, show n - (given cur).length = zeros by omega]
  | expectTest caller deadline stop now =>
    simp only [hpc, Pc.Ok] at hok
    simp only [goStep, hpc] at hs
    by_cases hlt : now < stop
    · rw [if_pos hlt] at hs
      cases hs
      exact ⟨_, _, h.goto (by rw [hpc]; rfl) h.rb hok⟩
    · rw [if_neg hlt] at hs
      cases hs
      obtain ⟨post, hw⟩ := hok
      exact h.fail (by rw [hpc]; rfl) hw
  | tcp | arm | reply | expect | pend | expectNext | done =>
    simp only [goStep, hpc] at hs
    cases hs

theorem step (h : Inv job chunks cur strict s) (hjob : job.Small) {a : Act}
    (ha : strict → Answered s a) (hs : step s a = some s') :
    ∃ chunks' cur', Inv job chunks' cur' strict s' := by
  cases a with
  | byte b t now =>
    cases hs
    exact ⟨_, _, h.byte b t.toNat now.toNat⟩
  | time t => exact h.time hjob ha hs
  | get stored i => exact h.get hs
  | pend ok => exact h.pend hs
  | go => exact h.go hjob ha hs

end Inv

theorem Pc.Ok.begun {totalLen : ℕ} {pc : Pc} (h : pc.Ok (.cb totalLen) chunks cur strict buf) :
    cur = [] ∨ ∃ n, 1 ≤ n ∧ n ≤ 1320 ∧ (given cur).length ≤ n ∧ written cur <+: frame n (given cur) := by
  have hwaiting : ∀ caller post, Waiting (.cb totalLen) chunks cur caller post →
      ∃ n, 1 ≤ n ∧ n ≤ 1320 ∧ (given cur).length ≤ n ∧ written cur <+: frame n (given cur) := by
    rintro caller post hw
    obtain ⟨n, data, ⟨hbytes, hone, hmax, hlen, hgiven⟩, -⟩ := hw.sent
    have hdata : given cur = data := hgiven
    rw [hdata]
    exact ⟨n, hone, hmax, hlen, hbytes ▸ List.prefix_refl _⟩
  have hbody : ∀ n body, Body.Ok (.cb totalLen) chunks n body → 1 ≤ n ∧ n ≤ 1320 := by
    rintro n body hb
    cases body with
    | tcp => cases hb.1
    | cb => exact ⟨hb.1.2.2.2.1, hb.1.2.2.2.2⟩
  cases pc with
  | tcp => cases h.1
  | top => exact .inl h.2.1
  | clearRb | clearSem | command | done => exact .inl h.1
  | carriageReturn body =>
    obtain ⟨n, hb, hwritten, hgiven⟩ := h
    refine .inr ⟨n, (hbody n body hb).1, (hbody n body hb).2, by simp [hgiven], ?_⟩
    simp only [hwritten, frame, List.append_assoc]
    exact List.prefix_append _ _
  | sleep body =>
    obtain ⟨n, hb, hwritten, hgiven⟩ := h
    refine .inr ⟨n, (hbody n body hb).1, (hbody n body hb).2, by simp [hgiven], ?_⟩
    rw [hwritten, frame, List.append_assoc _ (given cur)]
    exact List.prefix_append _ _
  | data body =>
    cases body with
    | tcp => cases h.1
    | cb thisLen sent totalLen =>
      obtain ⟨n, ⟨-, -, -, hone, hmax⟩, hwritten, hlen⟩ := h
      refine .inr ⟨n, hone, hmax, by omega, ?_⟩
      rw [hwritten]
      exact List.prefix_append _ _
  | pad thisLen sent totalLen =>
    obtain ⟨n, zeros, ⟨-, -, -, hone, hmax⟩, hwritten, hlen⟩ := h
    refine .inr ⟨n, hone, hmax, by omega, ?_⟩
    rw [hwritten, frame, show n - (given cur).length = zeros + thisLen by omega,
      List.replicate_add, ← List.append_assoc]
    exact List.prefix_append _ _
  | arm => exact .inr (hwaiting _ _ h)
  | reply | expect | expectTest | pend | read | expectNext =>
    obtain ⟨post, hw⟩ := h
    exact .inr (hwaiting _ _ hw)
  | compare =>
    obtain ⟨post, line, hw, -⟩ := h
    exact .inr (hwaiting _ _ hw)

theorem sendTcpCb_inv (a : Atcmd) (ha : strict → a.rb.Inv) (buf : ℕ → UInt8) (cbGet : Bool)
    (totalLen : UInt16) : Inv (.cb totalLen.toNat) [] [] strict (sendTcpCb a buf cbGet totalLen) := by
  refine ⟨rfl, by simp, by simp, ha, ?_⟩
  unfold sendTcpCb
  dsimp only
  split_ifs
  · exact ⟨rfl, fun hret => by cases hret⟩
  · exact ⟨rfl, rfl, rfl, Nat.zero_le _⟩

theorem sendTcp_inv (a : Atcmd) (ha : strict → a.rb.Inv) (buf : ℕ → UInt8) (dat : List UInt8)
    (timeoutMs : UInt32) : Inv (.tcp dat) [] [] strict (sendTcp a buf (some dat) timeoutMs) := by
  refine ⟨rfl, by simp, by simp, ha, ?_⟩
  unfold sendTcp
  dsimp only
  split_ifs
  · exact ⟨rfl, fun hret => by cases hret⟩
  · exact ⟨rfl, rfl, rfl⟩

theorem written_chunks (h : ∀ c ∈ chunks, c.Sent job) :
    written (chunks.flatMap Chunk.events) = chunks.flatMap fun c => frame c.n c.data := by
  rw [written, List.flatMap_assoc]
  exact List.flatMap_congr fun c hc => (h c hc).1

/-- In every run of `atcmd_send_tcp_cb`, whatever the callback gives, the modem answers and
the clock shows: the bytes on the serial port are whole chunks, behind them the start of one
while the call is running. When it returns success the announced numbers add up. -/
theorem chunks_announced_exactly (a : Atcmd) (buf : ℕ → UInt8) (cbGet : Bool) (totalLen : UInt16)
    {acts : List Act} {s : State} (hrun : run step (sendTcpCb a buf cbGet totalLen) acts = some s) :
    ∃ chunks cur, s.log = chunks.flatMap Chunk.events ++ cur ∧
      written s.log = (chunks.flatMap fun c => frame c.n c.data) ++ written cur ∧
      (∀ c ∈ chunks, 1 ≤ c.n ∧ c.n ≤ 1320 ∧ c.data.length ≤ c.n ∧ given c.events = c.data) ∧
      (cur = [] ∨ ∃ n, 1 ≤ n ∧ n ≤ 1320 ∧ (given cur).length ≤ n ∧
        written cur <+: frame n (given cur)) ∧
      ∀ ret, s.pc.returned = some ret → cur = [] ∧ (ret = true → announced chunks = totalLen.toNat) := by
  obtain ⟨chunks, cur, h⟩ := run_preserves
    (I := fun s => ∃ chunks cur, Inv (.cb totalLen.toNat) chunks cur False s)
    (fun _ _ _ ⟨_, _, h⟩ hs => h.step totalLen.toNat_lt False.elim hs)
    ⟨_, _, sendTcpCb_inv a False.elim buf cbGet totalLen⟩ hrun
  refine ⟨chunks, cur, h.log_eq, ?_, fun c hc => (h.sent c hc).2, h.pc.begun, ?_⟩
  · rw [h.log_eq, written_append, written_chunks h.sent]
  · intro ret hret
    have hok := h.pc
    cases hpc : s.pc with
    | done r =>
      rw [hpc] at hret hok
      obtain rfl : r = ret := Option.some.inj hret
      exact hok
    | _ =>
      rw [hpc] at hret
      cases hret

/-- The bytes of a modem that arrive while the receiver is at the start of a line. -/
def modem (bytes : List UInt8) : List Act := bytes.map fun b => .byte b 0 0

def announce : List Act := List.replicate 8 .go

def readReply : List Act := [.time 11, .time 11, .go, .pend true, .go, .go, .go]

/-- Three bytes, of which the callback gives two; the modem answers `SEND OK`. -/
def threeBytes : List Act :=
  announce ++ Act.get [7, 8] 2 :: Act.get [] 0 :: Act.go :: Act.go :: Act.time 10 ::
    (modem (sendOk ++ [Atcmd.carriageReturn, lineFeed]) ++ readReply)

/-- The callback gives the text `SEND OK`; the modem sends a line and starts a frame. -/
def staleToken : List Act :=
  announce ++ Act.get (sendOk ++ [0]) 8 :: Act.go :: Act.time 10 ::
    (modem ([79, 75, lineFeed] ++ ipd) ++ readReply)

theorem chunks_announced_exactly_three :
    ∃ s ∈ run step (sendTcpCb (Atcmd.init .zero (fun _ => 0) (fun _ => 0) 40 4) (fun _ => 0) true 3)
        threeBytes,
      s.pc.returned = some true ∧ written s.log = frame 3 [7, 8] ∧
        ∃ chunks : List Chunk, announced chunks = 3 ∧ ∀ c ∈ chunks, 1 ≤ c.n ∧ c.n ≤ 1320 := by
  have hrun : ∃ s ∈ run step
      (sendTcpCb (Atcmd.init .zero (fun _ => 0) (fun _ => 0) 40 4) (fun _ => 0) true 3) threeBytes,
      s.pc.returned = some true ∧ written s.log = frame 3 [7, 8] := by
    decide +kernel
  obtain ⟨s, hs, hret, hwritten⟩ := hrun
  obtain ⟨chunks, cur, -, -, hsent, -, hdone⟩ := chunks_announced_exactly _ _ _ _ hs
  exact ⟨s, hs, hret, hwritten, chunks, (hdone true hret).2 rfl,
    fun c hc => ⟨(hsent c hc).1, (hsent c hc).2.1⟩⟩

theorem done_stays {ret : Bool} {a : Act} (h : s.pc = .done ret) (hs : step s a = some s') :
    s'.pc = .done ret := by
  cases a with
  | byte =>
    cases hs
    exact h
  | time | get | pend | go =>
    simp only [step, timeStep, getStep, pendStep, goStep, h] at hs
    cases hs

/-- In every run in which the reply loop is never left by its time test and every read finds a
complete line: `atcmd_send_tcp` reports success only when the line `SEND OK` was read behind
the bytes it sent, and `atcmd_send_tcp_cb` only when it was read behind every chunk. -/
theorem success_is_confirmed {a : Atcmd} (ha : a.rb.Inv) (buf : ℕ → UInt8) {acts : List Act} {s : State}
    (hret : s.pc.returned = some true) :
    (∀ (dat : Option (List UInt8)) (timeoutMs : UInt32), (∀ d ∈ dat, d.length < 2 ^ 16) →
      AllSteps step Answered (sendTcp a buf dat timeoutMs) acts →
      run step (sendTcp a buf dat timeoutMs) acts = some s →
      ∃ d ∈ dat, ∃ pre post, s.log = pre ++ post ∧
        written pre = qisend d.length ++ [Atcmd.carriageReturn] ++ d ∧ written post = [] ∧
        .line (sendOk ++ [0]) ∈ post) ∧
    ∀ (cbGet : Bool) (totalLen : UInt16), AllSteps step Answered (sendTcpCb a buf cbGet totalLen) acts →
      run step (sendTcpCb a buf cbGet totalLen) acts = some s →
      ∃ chunks, s.log = chunks.flatMap Chunk.events ∧ announced chunks = totalLen.toNat ∧
        ∀ c ∈ chunks, c.Sent (.cb totalLen.toNat) ∧ c.Confirmed := by
  have hpc : s.pc = .done true := by
    cases hp : s.pc with
    | done r =>
      rw [hp] at hret
      obtain rfl : r = true := Option.some.inj hret
      rfl
    | _ =>
      rw [hp] at hret
      cases hret
  constructor
  · intro dat timeoutMs hdat hsteps hrun
    cases dat with
    | none =>
      have hdone := run_preserves (I := fun s => s.pc = .done false) (fun _ _ _ h hs => done_stays h hs)
        rfl hrun
      rw [hdone] at hpc
      cases hpc
    | some d =>
      obtain ⟨chunks, cur, h⟩ := run_invariant
        (I := fun s => ∃ chunks cur, Inv (.tcp d) chunks cur True s)
        (fun _ _ _ ⟨_, _, h⟩ ha hs => h.step (hdat d rfl) (fun _ => ha) hs)
        ⟨_, _, sendTcp_inv a (fun _ => ha) buf d timeoutMs⟩ hsteps hrun
      have hok := h.pc
      rw [hpc] at hok
      obtain ⟨rfl, hfin⟩ := hok
      obtain ⟨c, rfl⟩ := hfin rfl
      obtain ⟨hbytes, hn, hd⟩ := h.sent c (by simp)
      obtain ⟨pre, post, hevents, hwritten, hline⟩ := h.confirmed trivial (by simp [hret]) c (by simp)
      have hlog := h.log_eq
      simp only [List.flatMap_singleton, List.append_nil, hevents] at hlog
      rw [hevents, written_append, hwritten, List.append_nil, hd, hn] at hbytes
      refine ⟨d, rfl, pre, post, hlog, ?_, hwritten, hline⟩
      simpa [frame] using hbytes
  · intro cbGet totalLen hsteps hrun
    obtain ⟨chunks, cur, h⟩ := run_invariant
      (I := fun s => ∃ chunks cur, Inv (.cb totalLen.toNat) chunks cur True s)
      (fun _ _ _ ⟨_, _, h⟩ ha hs => h.step totalLen.toNat_lt (fun _ => ha) hs)
      ⟨_, _, sendTcpCb_inv a (fun _ => ha) buf cbGet totalLen⟩ hsteps hrun
    have hok := h.pc
    rw [hpc] at hok
    obtain ⟨rfl, hfin⟩ := hok
    have hlog := h.log_eq
    rw [List.append_nil] at hlog
    exact ⟨chunks, hlog, hfin rfl, fun c hc => ⟨h.sent c hc, h.confirmed trivial (by simp [hret]) c hc⟩⟩

theorem success_is_confirmed_three :
    ∃ s ∈ run step (sendTcpCb (Atcmd.init .zero (fun _ => 0) (fun _ => 0) 40 4) (fun _ => 0) true 3)
        threeBytes,
      ∃ chunks, s.log = chunks.flatMap Chunk.events ∧ announced chunks = 3 ∧
        ∀ c ∈ chunks, c.Sent (.cb 3) ∧ c.Confirmed := by
  have hrun : ∃ s ∈ run step
      (sendTcpCb (Atcmd.init .zero (fun _ => 0) (fun _ => 0) 40 4) (fun _ => 0) true 3) threeBytes,
      s.pc.returned = some true := by
    decide +kernel
  obtain ⟨s, hs, hret⟩ := hrun
  have hrb : (Atcmd.init .zero (fun _ => 0) (fun _ => 0) 40 4).rb.Inv :=
    (Tokens.init .zero (fun _ => 0) (fun _ => 0) 40 4).inv
  exact ⟨s, hs, (success_is_confirmed hrb (fun _ => 0) hret).2 true 3 (by decide +kernel) hs⟩

/-- With no time to wait, `atcmd_send_tcp` leaves the reply loop at its first test and reports
success. `atcmd_send_tcp_cb` compares the data of its callback, which is still in `buf`, when a
frame has erased the line of a token. No `SEND OK` was read in either run. -/
theorem success_not_confirmed :
    (∃ s ∈ run step (sendTcp (Atcmd.init .zero (fun _ => 0) (fun _ => 0) 40 4) (fun _ => 0) (some [7]) 0)
        (Act.time 5 :: (announce ++ [Act.time 5])),
      s.pc.returned = some true ∧ .line (sendOk ++ [0]) ∉ s.log) ∧
    ∃ s ∈ run step (sendTcpCb (Atcmd.init .zero (fun _ => 0) (fun _ => 0) 40 4) (fun _ => 0) true 8)
        staleToken,
      s.pc.returned = some true ∧ .line (sendOk ++ [0]) ∉ s.log := by
  decide +kernel

end EmbeddedTemplate.Atcmd.Send
