import EmbeddedTemplate.Async.Basic
import EmbeddedTemplate.Ringbuffer.Fifo

/-! The byte queue `looper->rb` as a queue of commands. -/
namespace EmbeddedTemplate.Async

open ByteMem Frames

variable (T : Target)

structure Whole (rb : Ringbuffer) : Prop where
  inv : rb.Inv
  cap : rb.cap = 100
  dvd : T.cmdSize ∣ rb.len

def commands (rb : Ringbuffer) : List Command := (frames T.cmdSize rb.content).map (parse T)

variable {T} {rb : Ringbuffer}

theorem cmdSize_pos : 0 < T.cmdSize := by
  have h1 := T.event_pos
  have h2 := T.event_le
  have h3 := T.data_le
  omega

theorem init_whole (buf : ℕ → UInt8) : Whole T (Ringbuffer.init buf 100) where
  inv := Ringbuffer.init_inv buf (by decide)
  cap := rfl
  dvd := Nat.dvd_zero _

@[simp] theorem init_commands (buf : ℕ → UInt8) (c : ℕ) :
    commands T (Ringbuffer.init buf c) = [] := by
  simp [commands]

@[simp] theorem clear_commands : commands T rb.clear = [] := by
  simp [commands]

@[simp] theorem length_record (priv : Mem) : (record T priv).length = T.cmdSize := by
  simp [record]

theorem parse_record (priv : Mem) : parse T (record T priv) = fields T priv := by
  have h1 := T.event_pos
  have h2 := T.event_le
  have h3 := T.data_le
  have hbyte : ∀ i < T.cmdSize, (record T priv).getD i 0 = priv i := by
    intro i hi
    simp [record, List.getD_eq_getElem?_getD, hi]
  unfold parse fields
  congr 1
  · exact load_congr fun x _ hx => hbyte x (by omega)
  · exact load_congr fun x _ hx => hbyte x (by omega)
  · exact load_congr fun x _ hx => hbyte x (by omega)

theorem load_priv_type (stack : Mem) (v e : ℕ) :
    load (store (store stack 1 0 v) T.ptrBytes T.eventOff e) 1 0 = v % 256 := by
  have h1 := T.event_pos
  rw [load_store_of_disjoint (Or.inl (by omega)), load_store_self, pow_one]

theorem load_priv_data (stack : Mem) (v e : ℕ) :
    load (store (store stack 1 0 v) T.ptrBytes T.eventOff e) T.ptrBytes T.dataOff =
      load stack T.ptrBytes T.dataOff := by
  have h1 := T.event_pos
  have h2 := T.event_le
  rw [load_store_of_disjoint (Or.inr (by omega)), load_store_of_disjoint (Or.inr (by omega))]

def Call.type : Call → ℕ
  | .register _ => commandAddEvent
  | .trigger _ _ => commandTriggerCall
  | .cancel _ => commandCancelEvent
  | .exit => commandExit

theorem fields_type (call : Call) (stack : Mem) : (fields T (call.priv T stack)).type = call.type := by
  unfold fields
  cases call with
  | register | trigger | cancel => exact load_priv_type stack _ _
  | exit => exact load_store_self stack 1 0 commandExit

theorem load_priv_event (stack : Mem) (v : ℕ) {e : ℕ} (he : e < 256 ^ T.ptrBytes) :
    load (store (store stack 1 0 v) T.ptrBytes T.eventOff e) T.ptrBytes T.eventOff = e := by
  rw [load_store_self, Nat.mod_eq_of_lt he]

/-- The data of a trigger is what the stack frame happened to hold. -/
theorem fields_trigger (stack : Mem) {e : ℕ} (d : ℕ) (he : e < 256 ^ T.ptrBytes) :
    (fields T (Call.priv T stack (.trigger e d))).event = e ∧
      (fields T (Call.priv T stack (.trigger e d))).additionData =
        load stack T.ptrBytes T.dataOff := by
  constructor
  · exact load_priv_event stack commandTriggerCall he
  · exact load_priv_data stack commandTriggerCall e

/-- `ringbuffer_write` of a command: all of it or nothing. -/
theorem write_record (h : Whole T rb) (priv : Mem) :
    ((rb.write (record T priv)).1 = T.cmdSize ∧ Whole T (rb.write (record T priv)).2 ∧
      commands T (rb.write (record T priv)).2 = commands T rb ++ [fields T priv] ∧
      (rb.write (record T priv)).2.len = rb.len + T.cmdSize) ∨
    ((rb.write (record T priv)).1 ≠ T.cmdSize ∧ (rb.write (record T priv)).2 = rb) := by
  have hpos := cmdSize_pos (T := T)
  by_cases hroom : (record T priv).length ≤ rb.cap - rb.len
  · obtain ⟨hinv, hcap, hret, hcont⟩ := Ringbuffer.write_of_le h.inv hroom
    have hlen := congrArg List.length hcont
    simp only [Ringbuffer.length_content, List.length_append, length_record] at hlen
    left
    refine ⟨by rw [hret, length_record], ⟨hinv, by rw [hcap, h.cap], ?_⟩, ?_, hlen⟩
    · rw [hlen]
      exact Nat.dvd_add h.dvd (Nat.dvd_refl _)
    · have hdvd : T.cmdSize ∣ rb.content.length := by
        rw [Ringbuffer.length_content]
        exact h.dvd
      unfold commands
      rw [hcont, frames_concat hpos hdvd (length_record priv), List.map_append, ← parse_record]
      rfl
  · have hw := Ringbuffer.write_of_lt h.inv (Nat.lt_of_not_le hroom)
    right
    rw [hw]
    exact ⟨hpos.ne, rfl⟩

theorem read_command (h : Whole T rb) (hret : (rb.read T.cmdSize).ret = T.cmdSize) :
    Whole T (rb.read T.cmdSize).rb ∧
      commands T rb = parse T (rb.read T.cmdSize).bytes :: commands T (rb.read T.cmdSize).rb ∧
      (rb.read T.cmdSize).rb.len + T.cmdSize = rb.len := by
  have hpos := cmdSize_pos (T := T)
  have hle := T.cmdSize_le
  by_cases hfree : (rb.cap : ℤ) - rb.len < T.cmdSize
  · rw [Ringbuffer.read, if_pos hfree] at hret
    exact absurd hret hpos.ne
  · rw [Ringbuffer.read, if_neg hfree] at hret ⊢
    obtain ⟨hinv, hcap, hbytes, hr, hcont⟩ :=
      Ringbuffer.tryRead_spec h.inv (show T.cmdSize < 2 ^ 16 by omega)
    rw [hr] at hret
    have hlen : T.cmdSize ≤ rb.len := by
      rw [List.length_take, Ringbuffer.length_content] at hret
      omega
    rw [hret] at hcont
    have hrest : (rb.tryRead T.cmdSize).rb.len + T.cmdSize = rb.len := by
      have := congrArg List.length hcont
      simp only [Ringbuffer.length_content, List.length_drop] at this
      omega
    refine ⟨⟨hinv, by rw [hcap, h.cap], ?_⟩, ?_, hrest⟩
    · have hdvd := h.dvd
      rw [← hrest] at hdvd
      exact (Nat.dvd_add_left (Nat.dvd_refl _)).mp hdvd
    · unfold commands
      rw [hcont, hbytes]
      nth_rewrite 1 [← List.take_append_drop T.cmdSize rb.content]
      rw [frames_cons hpos hret, List.map_cons]

/-- With a command in the queue and as much free space as a command takes, the read
succeeds. -/
theorem read_ret (h : Whole T rb) (hne : 0 < rb.len) (hfree : rb.len + T.cmdSize ≤ rb.cap) :
    (rb.read T.cmdSize).ret = T.cmdSize := by
  have hle := T.cmdSize_le
  have hlen : T.cmdSize ≤ rb.len := Nat.le_of_dvd hne h.dvd
  rw [Ringbuffer.read, if_neg (by omega)]
  obtain ⟨-, -, -, hr, -⟩ := Ringbuffer.tryRead_spec h.inv (show T.cmdSize < 2 ^ 16 by omega)
  rw [hr, List.length_take, Ringbuffer.length_content]
  omega

theorem commands_of_len_eq_zero (h : rb.len = 0) : commands T rb = [] := by
  have hnil : rb.content = [] := List.length_eq_zero_iff.mp (by rw [Ringbuffer.length_content, h])
  simp [commands, hnil]

/-- With that much free space only an empty queue makes it fail. -/
theorem commands_of_read_fails (h : Whole T rb) (hfree : rb.len + T.cmdSize ≤ rb.cap)
    (hret : (rb.read T.cmdSize).ret ≠ T.cmdSize) : commands T rb = [] := by
  apply commands_of_len_eq_zero
  by_contra hne
  exact hret (read_ret h (Nat.pos_of_ne_zero hne) hfree)

theorem notifyLoop_cases {s : State} (h : Whole T s.rb) (call : Call) (stack : Mem) :
    (∃ rb, Whole T rb ∧ rb.len = s.rb.len + T.cmdSize ∧
      commands T rb = commands T s.rb ++ [fields T (call.priv T stack)] ∧
      notifyLoop T s call stack = ({ s with
        rb
        posting := s.posting ++ [⟨call, fields T (call.priv T stack)⟩]
        accepted := s.accepted ++ [fields T (call.priv T stack)]
        queue := s.queue ++ [call] }, true)) ∨
    notifyLoop T s call stack = (s, false) := by
  unfold notifyLoop
  rcases write_record h (call.priv T stack) with ⟨hret, hw, hcmds, hlen⟩ | ⟨hret, hrb⟩
  · left
    refine ⟨_, hw, hlen, hcmds, ?_⟩
    rw [if_neg (by simpa using hret), parse_record]
  · right
    rw [if_pos hret, hrb]

theorem dequeue_cases {s : State} (h : Whole T s.rb) (next : ℕ) :
    (∃ rb cmd, Whole T rb ∧ s.rb.len = rb.len + T.cmdSize ∧
      commands T s.rb = cmd :: commands T rb ∧
      dequeue T s next = { s with
        rb
        dispatched := s.dispatched ++ [cmd]
        cause := s.queue.head?
        queue := s.queue.tail
        pc := dispatch T s.links next cmd }) ∨
    ((s.rb.read T.cmdSize).ret ≠ T.cmdSize ∧ ∃ rb, Whole T rb ∧ commands T rb = [] ∧
      dequeue T s next = { s with rb, queue := [], pc := .clearSem next }) := by
  unfold dequeue
  by_cases hret : (s.rb.read T.cmdSize).ret = T.cmdSize
  · obtain ⟨hw, hcmds, hlen⟩ := read_command h hret
    left
    refine ⟨_, _, hw, hlen.symm, hcmds, ?_⟩
    rw [if_neg (by simpa using hret)]
  · right
    have hle := T.cmdSize_le
    obtain ⟨hinv, hcap⟩ := Ringbuffer.read_inv h.inv (show T.cmdSize < 2 ^ 16 by omega)
    have hw : Whole T (s.rb.read T.cmdSize).rb.clear :=
      ⟨Ringbuffer.clear_inv hinv, hcap.trans h.cap, Nat.dvd_zero _⟩
    refine ⟨hret, _, hw, clear_commands, ?_⟩
    rw [if_pos hret]

end EmbeddedTemplate.Async
