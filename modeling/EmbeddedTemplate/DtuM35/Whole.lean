import EmbeddedTemplate.DtuM35.Commands

/-! Whether `cmd_rb` holds whole commands. -/
namespace EmbeddedTemplate.DtuM35

open ByteMem Transition

variable {L : Layout} {s s' : State}

/-- A queue of complete records, or one whose first header `dtum35_run` has just taken. -/
inductive Whole (L : Layout) (s : State) : Prop
  | between (cs : List Client) (hpc : s.pc.paramLen? = none)
      (hc : s.cmdRb.content = (cs.map (Client.record L)).flatten)
  | param (c : Client) (cs : List Client) (hpc : s.pc = .param c.cmd.code (UInt8.ofNat (c.cmd.size L)))
      (hc : s.cmdRb.content = c.cmd.paramBytes L c.stack c.ret ++ (cs.map (Client.record L)).flatten)

variable (L)

/-- A client writes both parts of its command or neither of them, and the parameters of a
command are read where they would fit once more. -/
def Uncut (s : State) : Act → Prop
  | .enqueue i => ∀ c ∈ s.clients[i]?, c.cmd.size L + 2 ≤ s.cmdRb.cap - s.cmdRb.len ∨
      s.cmdRb.cap - s.cmdRb.len < min 2 (c.cmd.size L)
  | .readParam => ∀ n ∈ s.pc.paramLen?, s.cmdRb.len + n ≤ s.cmdRb.cap
  | _ => True

instance Uncut.decidable (s : State) : ∀ a, Decidable (Uncut L s a)
  | .enqueue i => inferInstanceAs (Decidable (∀ c ∈ s.clients[i]?,
      c.cmd.size L + 2 ≤ s.cmdRb.cap - s.cmdRb.len ∨ s.cmdRb.cap - s.cmdRb.len < min 2 (c.cmd.size L)))
  | .readParam =>
    inferInstanceAs (Decidable (∀ n ∈ s.pc.paramLen?, s.cmdRb.len + n ≤ s.cmdRb.cap))
  | .call _ _ _ | .finish _ | .config _ | .pend _ | .handle _ | .readHeader | .clear => isTrue trivial

variable {L}

theorem write_nothing {rb : Ringbuffer} (h : rb.Inv) (c : Client)
    (hfull : rb.cap - rb.len < min 2 (c.cmd.size L)) :
    ((rb.write (c.cmd.info L)).2.write (c.cmd.paramBytes L c.stack c.ret)).2 = rb := by
  have hinfo : rb.write (c.cmd.info L) = (0, rb) :=
    Ringbuffer.write_of_lt h (by simp [Cmd.info]; omega)
  have hparam : rb.write (c.cmd.paramBytes L c.stack c.ret) = (0, rb) :=
    Ringbuffer.write_of_lt h (by rw [Cmd.length_paramBytes]; omega)
  rw [hinfo, hparam]

namespace Whole

theorem same (h : Whole L s) (hrb : s'.cmdRb = s.cmdRb) (hpc' : s'.pc = s.pc) : Whole L s' := by
  cases h with
  | between cs hpc hc => exact .between cs (hpc' ▸ hpc) (hrb ▸ hc)
  | param c cs hpc hc => exact .param c cs (hpc' ▸ hpc) (hrb ▸ hc)

theorem push (h : Whole L s) {c : Client} (hpc' : s'.pc = s.pc)
    (hrb : s'.cmdRb.content = s.cmdRb.content ++ c.record L) : Whole L s' := by
  cases h with
  | between cs hpc hc =>
    refine .between (cs ++ [c]) (hpc' ▸ hpc) ?_
    rw [hrb, hc]
    simp
  | param d cs hpc hc =>
    refine .param d (cs ++ [c]) (hpc' ▸ hpc) ?_
    rw [hrb, hc]
    simp

theorem enqueue (h : Whole L s) (hrb : s.cmdRb.Inv) {i : ℕ} {c : Client}
    (hu : c.cmd.size L + 2 ≤ s.cmdRb.cap - s.cmdRb.len ∨
      s.cmdRb.cap - s.cmdRb.len < min 2 (c.cmd.size L))
    (hs : enqueueStep L s i c = some s') : s'.cmdRb.Inv ∧ Whole L s' := by
  obtain ⟨-, hs⟩ := Option.ite_none_left_eq_some.mp hs
  cases hs
  obtain hroom | hfull := hu
  · obtain ⟨hinv, -, hcont⟩ := write_record hrb c hroom
    exact ⟨hinv, h.push rfl hcont⟩
  · have heq := write_nothing hrb c hfull
    exact ⟨heq.symm ▸ hrb, h.same heq rfl⟩

theorem readHeader (h : Whole L s) (hrb : s.cmdRb.Inv) (hs : readHeaderStep L s = some s') :
    s'.cmdRb.Inv ∧ Whole L s' := by
  cases h with
  | param c cs hpc hc =>
    simp only [readHeaderStep, hpc] at hs
    cases hs
  | between cs hpc hc =>
    by_cases hhead : s.pc = .header
    · by_cases hfree : s.cmdRb.len + 2 ≤ s.cmdRb.cap
      · cases cs with
        | nil =>
          obtain ⟨hinv, -, -, hret, hcont⟩ := Ringbuffer.tryRead_spec hrb (show 2 < 2 ^ 16 by decide)
          have hread : s.cmdRb.read 2 = s.cmdRb.tryRead 2 := if_neg (by omega)
          rw [hc] at hret hcont
          simp only [readHeaderStep, hhead, hread, hret] at hs
          cases hs
          exact ⟨hinv, .between [] rfl hcont⟩
        | cons c cs =>
          rw [List.map_cons, List.flatten_cons] at hc
          obtain ⟨rb, hinv, -, hcont, hstep⟩ := readHeaderStep_of_record hrb hhead hfree hc
          rw [hstep] at hs
          cases hs
          exact ⟨hinv, .param c cs rfl hcont⟩
      · have hread : s.cmdRb.read 2 = ⟨0, [], s.cmdRb⟩ := if_pos (by omega)
        simp only [readHeaderStep, hhead, hread] at hs
        cases hs
        exact ⟨hrb, .between cs rfl hc⟩
    · unfold readHeaderStep at hs
      split at hs
      · contradiction
      · cases hs

theorem readParam (h : Whole L s) (hrb : s.cmdRb.Inv) (hu : Uncut L s .readParam)
    (hs : readParamStep L s = some s') : s'.cmdRb.Inv ∧ Whole L s' := by
  cases h with
  | param c cs hpc hc =>
    obtain ⟨rb, hinv, -, hcont, hstep⟩ := readParamStep_of_record hrb hpc hu hc
    rw [hstep] at hs
    cases hs
    exact ⟨hinv, .between cs rfl hcont⟩
  | between cs hpc hc =>
    unfold readParamStep at hs
    split at hs
    · next heq =>
      rw [heq] at hpc
      cases hpc
    · cases hs

theorem move (h : Whole L s) (hpc : s.pc.paramLen? = none) (hrb : s'.cmdRb = s.cmdRb)
    (hpc' : s'.pc.paramLen? = none) : Whole L s' := by
  cases h with
  | between cs _ hc => exact .between cs hpc' (hrb ▸ hc)
  | param c cs hp _ => rw [hp] at hpc; cases hpc

theorem config (h : Whole L s) {ok : Bool} (hs : step L s (.config ok) = some s') :
    s'.cmdRb = s.cmdRb ∧ Whole L s' := by
  simp only [DtuM35.step] at hs
  split at hs
  · next hpc =>
    cases hs
    refine ⟨rfl, h.move (by rw [hpc]; rfl) rfl ?_⟩
    cases ok <;> rfl
  · cases hs

theorem pend (h : Whole L s) {ok : Bool} (hs : pendStep s ok = some s') :
    s'.cmdRb = s.cmdRb ∧ Whole L s' := by
  unfold pendStep at hs
  split at hs
  · next hpc _ =>
    cases hs
    exact ⟨rfl, h.move (by rw [hpc]; rfl) rfl rfl⟩
  · next hpc _ =>
    cases hs
    exact ⟨rfl, h.move (by rw [hpc]; rfl) rfl rfl⟩
  · cases hs

theorem handle (h : Whole L s) {ok : Bool} (hs : handleStep L s ok = some s') :
    s'.cmdRb = s.cmdRb ∧ Whole L s' := by
  unfold handleStep at hs
  split at hs
  · next hpc =>
    cases hs
    exact ⟨rfl, h.move (by rw [hpc]; rfl) rfl rfl⟩
  · cases hs

theorem clear (hrb : s.cmdRb.Inv) (hs : step L s .clear = some s') : s'.cmdRb.Inv ∧ Whole L s' := by
  simp only [DtuM35.step] at hs
  split at hs
  · cases hs
    exact ⟨Ringbuffer.clear_inv hrb, .between [] rfl rfl⟩
  · cases hs

theorem step (h : Whole L s) (hrb : s.cmdRb.Inv) {a : Act} (ha : Uncut L s a)
    (hs : step L s a = some s') : s'.cmdRb.Inv ∧ Whole L s' := by
  cases a with
  | call cmd ret stack =>
    obtain ⟨-, hs⟩ := Option.ite_none_right_eq_some.mp hs
    split at hs
    · cases hs
      exact ⟨hrb, h⟩
    · cases hs
      exact ⟨hrb, h.same rfl rfl⟩
  | enqueue i =>
    obtain ⟨c, hi, hs⟩ := Option.bind_eq_some_iff.mp hs
    exact h.enqueue hrb (ha c hi) hs
  | finish i =>
    obtain ⟨c, hi, hs⟩ := Option.bind_eq_some_iff.mp hs
    obtain ⟨-, hs⟩ := Option.ite_none_right_eq_some.mp hs
    cases hs
    exact ⟨hrb, h.same rfl rfl⟩
  | config ok =>
    obtain ⟨heq, hw⟩ := h.config hs
    exact ⟨heq ▸ hrb, hw⟩
  | pend ok =>
    obtain ⟨heq, hw⟩ := h.pend hs
    exact ⟨heq ▸ hrb, hw⟩
  | readHeader => exact h.readHeader hrb hs
  | readParam => exact h.readParam hrb ha hs
  | handle ok =>
    obtain ⟨heq, hw⟩ := h.handle hs
    exact ⟨heq ▸ hrb, hw⟩
  | clear => exact clear hrb hs

end Whole

theorem records_complete (cs : List Client) : ∀ r ∈ cs.map (Client.record L), Complete r := by
  intro r hr
  obtain ⟨c, -, rfl⟩ := List.mem_map.mp hr
  exact c.cmd.record_complete c.stack c.ret

/-- In every schedule whose steps meet the condition the queue is a concatenation of complete
records, except between the two reads of a command, where the parameters of that command
stand before them. -/
theorem queue_holds_whole_commands (L : Layout) {as : List Act} {s : State}
    (h : AllSteps (step L) (Uncut L) init as) (hrun : run (step L) init as = some s) :
    (s.pc.paramLen? = none → ∃ rs : List (List UInt8),
        (∀ r ∈ rs, Complete r) ∧ s.cmdRb.content = rs.flatten) ∧
      ∀ n ∈ s.pc.paramLen?, ∃ (p : List UInt8) (rs : List (List UInt8)),
        p.length = n ∧ (∀ r ∈ rs, Complete r) ∧ s.cmdRb.content = p ++ rs.flatten := by
  obtain ⟨-, hw⟩ := run_invariant (I := fun s => s.cmdRb.Inv ∧ Whole L s)
    (fun _ _ _ hI ha hs => hI.2.step hI.1 ha hs)
    ⟨Ringbuffer.init_inv _ (by decide), .between [] rfl rfl⟩ h hrun
  cases hw with
  | between cs hpc hc =>
    constructor
    · intro _
      exact ⟨_, records_complete cs, hc⟩
    · intro n hn
      rw [hpc] at hn
      cases hn
  | param c cs hpc hc =>
    rw [hpc]
    constructor
    · intro hnone
      cases hnone
    · intro n hn
      refine ⟨_, _, ?_, records_complete cs, hc⟩
      rw [c.cmd.length_paramBytes, ← Option.some.inj hn, c.cmd.toNat_size]

/-- A command in the queue whose header has been read, and one behind it. -/
theorem queue_holds_whole_commands_two :
    ∃ s ∈ run (step .lp64) init
        [.config true, .call (.send 100 5 1000) 200 fun _ => 0, .call .disconnect 300 fun _ => 0,
          .enqueue 0, .enqueue 1, .pend true, .readHeader],
      s.pc.paramLen? = some 24 ∧ ∃ (p : List UInt8) (rs : List (List UInt8)),
        p.length = 24 ∧ (∀ r ∈ rs, Complete r) ∧ s.cmdRb.content = p ++ rs.flatten := by
  have hrun : ∃ s ∈ run (step .lp64) init
      [.config true, .call (.send 100 5 1000) 200 fun _ => 0, .call .disconnect 300 fun _ => 0,
        .enqueue 0, .enqueue 1, .pend true, .readHeader],
      s.pc.paramLen? = some 24 := by decide +kernel
  obtain ⟨s, hs, hpc⟩ := hrun
  exact ⟨s, hs, hpc, (queue_holds_whole_commands .lp64 (by decide +kernel) hs).2 24 hpc⟩

/-- Four clients find space for their commands before any of them writes; the last one only
gets its header into the queue. -/
theorem half_command_in_queue :
    ∃ s ∈ run (step .lp64) init
        [.call (.send 100 5 1000) 200 fun _ => 0, .call (.send 100 5 1000) 300 fun _ => 0,
          .call (.send 100 5 1000) 400 fun _ => 0, .call (.send 100 5 1000) 500 fun _ => 0,
          .enqueue 0, .enqueue 1, .enqueue 2, .enqueue 3],
      s.pc.paramLen? = none ∧ ¬ ∃ rs : List (List UInt8),
        (∀ r ∈ rs, Complete r) ∧ s.cmdRb.content = rs.flatten := by
  have hrun : ∃ s ∈ run (step .lp64) init
      [.call (.send 100 5 1000) 200 fun _ => 0, .call (.send 100 5 1000) 300 fun _ => 0,
        .call (.send 100 5 1000) 400 fun _ => 0, .call (.send 100 5 1000) 500 fun _ => 0,
        .enqueue 0, .enqueue 1, .enqueue 2, .enqueue 3],
      s.pc.paramLen? = none ∧ (records s.cmdRb.content).flatten ≠ s.cmdRb.content := by
    decide +kernel
  obtain ⟨s, hs, hpc, hne⟩ := hrun
  refine ⟨s, hs, hpc, ?_⟩
  rintro ⟨rs, hrs, hc⟩
  apply hne
  rw [hc, records_flatten hrs]

end EmbeddedTemplate.DtuM35
