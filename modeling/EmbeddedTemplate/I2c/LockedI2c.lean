import Mathlib.Data.Nat.Notation

/-! The bus with a mutex around each transfer, `locked_i2c.c`. -/
namespace EmbeddedTemplate.LockedI2c

structure Args where
  addr : UInt8
  w : Option (List UInt8)
  wlen : UInt8
  r : Bool
  rlen : UInt8
deriving DecidableEq, Repr

/-- What a transfer returns, and the bytes that it stores through `r`. -/
structure Reply where
  ret : UInt8
  r : List UInt8
deriving DecidableEq, Repr

/-- `struct i2c_operations` on private data of type `σ`. -/
structure Operations (σ : Type) where
  init : σ → UInt8 × σ
  deinit : σ → σ
  transmit : σ → Args → Reply × σ

/-- What happens to the mutexes and to the wrapped bus. A NULL mutex is none. -/
inductive Event where
  | create (m : Option ℕ)
  | destroy (m : Option ℕ)
  | lock (m : Option ℕ)
  | unlock (m : Option ℕ)
  | init
  | deinit
  | transmit (args : Args)
deriving DecidableEq, Repr

/-- `mutex` of `struct lockedi2c_platform` and the private data of the wrapped bus. -/
structure State (σ : Type) where
  mutex : Option ℕ
  bus : σ

structure Outcome (σ : Type) where
  reply : Reply
  events : List Event
  state : State σ

/-- The calls; `created` is what `os_create_mutex` returns. -/
inductive Call where
  | init (created : Option ℕ)
  | deinit
  | writeThenRead (args : Args)
deriving DecidableEq, Repr

variable {σ : Type} (ops : Operations σ)

def lockedi2cInit (s : State σ) (created : Option ℕ) : Outcome σ :=
  match created with
  | none => ⟨⟨0, []⟩, [.create none], { s with mutex := none }⟩
  | some m =>
    let r := ops.init s.bus
    if r.1 = 0 then ⟨⟨0, []⟩, [.create (some m), .init, .destroy (some m)], ⟨none, r.2⟩⟩
    else ⟨⟨1, []⟩, [.create (some m), .init], ⟨some m, r.2⟩⟩

def lockedi2cDeinit (s : State σ) : Outcome σ :=
  match s.mutex with
  | some m =>
    ⟨⟨0, []⟩, [.lock (some m), .deinit, .unlock (some m), .destroy (some m)], ⟨none, ops.deinit s.bus⟩⟩
  | none => ⟨⟨0, []⟩, [], s⟩

/-- `lockedi2c_write_then_read`. The transfer is made when the mutex is NULL. -/
def lockedi2cWriteThenRead (s : State σ) (args : Args) : Outcome σ :=
  match s.mutex with
  | none =>
    let t := ops.transmit s.bus args
    ⟨t.1, [.lock s.mutex, .transmit args, .unlock s.mutex], { s with bus := t.2 }⟩
  | some _ => ⟨⟨0, []⟩, [], s⟩

def step (s : State σ) : Call → Outcome σ
  | .init created => lockedi2cInit ops s created
  | .deinit => lockedi2cDeinit ops s
  | .writeThenRead args => lockedi2cWriteThenRead ops s args

/-- The mutex of the last successful `init`, when no `deinit` has followed it. -/
def live (before : Option ℕ) (out : Outcome σ) : Call → Option ℕ
  | .init created => if out.reply.ret = 0 then before else created
  | .deinit => none
  | .writeThenRead _ => before

/-- A transfer is the one of the wrapped bus, with the live mutex held during it, and nothing at all
when there is no live mutex. -/
def Wraps (ops : Operations σ) (owner : Option ℕ) (s : State σ) (args : Args) (out : Outcome σ) : Prop :=
  match owner with
  | some m =>
    let t := ops.transmit s.bus args
    out.reply = t.1 ∧ out.events = [.lock (some m), .transmit args, .unlock (some m)] ∧ out.state.bus = t.2
  | none => out.reply.ret = 0 ∧ out.events = []

def Refines (ops : Operations σ) : Option ℕ → State σ → List Call → Prop
  | _, _, [] => True
  | owner, s, c :: cs =>
    (∀ args, c = .writeThenRead args → Wraps ops owner s args (step ops s c)) ∧
      Refines ops (live owner (step ops s c) c) (step ops s c).state cs

variable {ops} {owner : Option ℕ} {s : State σ}

def Owned (owner : Option ℕ) (s : State σ) : Prop := s.mutex ≠ none → s.mutex = owner

theorem step_owned (h : Owned owner s) (c : Call) :
    Owned (live owner (step ops s c) c) (step ops s c).state := by
  cases c with
  | init created =>
    cases created with
    | none => exact fun hne => absurd rfl hne
    | some m =>
      intro hne
      unfold step lockedi2cInit live at *
      dsimp only at hne ⊢
      by_cases hz : (ops.init s.bus).1 = 0
      · rw [if_pos hz] at hne
        exact absurd rfl hne
      · simp [if_neg hz]
  | deinit =>
    unfold step lockedi2cDeinit
    cases hm : s.mutex with
    | none => exact fun hne => absurd hm hne
    | some m => exact fun hne => absurd rfl hne
  | writeThenRead args =>
    unfold step lockedi2cWriteThenRead
    cases hm : s.mutex with
    | none => exact fun hne => absurd rfl hne
    | some m => exact h

/-- No transfer is right: with a live mutex in the field nothing is done, and without one the bus
is used. -/
theorem not_wraps (h : Owned owner s) (args : Args) :
    ¬ Wraps ops owner s args (lockedi2cWriteThenRead ops s args) := by
  unfold lockedi2cWriteThenRead
  cases hm : s.mutex with
  | none =>
    cases owner with
    | none => simp [Wraps]
    | some m => simp [Wraps]
  | some m =>
    have howner : some m = owner := hm ▸ h (by simp [hm])
    simp [Wraps, ← howner]

/-- A sequence of calls is right exactly when it asks for no transfer. -/
theorem lockedi2c_refines_iff (ops : Operations σ) (bus : σ) (calls : List Call) :
    Refines ops none ⟨none, bus⟩ calls ↔ ∀ args, .writeThenRead args ∉ calls := by
  have hall : ∀ calls owner (s : State σ), Owned owner s →
      (Refines ops owner s calls ↔ ∀ args, .writeThenRead args ∉ calls) := by
    intro calls
    induction calls with
    | nil => simp [Refines]
    | cons c cs ih =>
      intro owner s h
      have hrest := ih _ _ (@step_owned _ ops owner s h c)
      simp only [Refines, hrest, List.mem_cons, not_or, forall_and]
      apply and_congr_left'
      constructor
      · rintro hw args rfl
        exact not_wraps h args (hw args rfl)
      · intro hne args hc
        exact absurd hc.symm (hne args)
  exact hall calls none _ fun hne => absurd rfl hne

/-- The bus is never used after a successful `init`: here it would return 2. -/
theorem lockedi2c_transfers_nothing :
    let ops : Operations Unit := ⟨fun s => (1, s), id, fun s _ => (⟨2, [0x11]⟩, s)⟩
    let s := (step ops ⟨none, ()⟩ (.init (some 1))).state
    let args : Args := ⟨0x50, some [0x10], 1, true, 1⟩
    s.mutex = some 1 ∧ (lockedi2cWriteThenRead ops s args).reply.ret = 0 ∧
      (lockedi2cWriteThenRead ops s args).events = [] ∧
      ¬ Refines ops none ⟨none, ()⟩ [.init (some 1), .writeThenRead args] := by
  refine ⟨rfl, rfl, rfl, ?_⟩
  rintro ⟨-, hwraps, -⟩
  exact absurd (hwraps _ rfl).2.1 (by decide)

end EmbeddedTemplate.LockedI2c
