import EmbeddedTemplate.DtuM35.Basic
import EmbeddedTemplate.Ringbuffer.Fifo

/-! Which commands reach `dtum35_run`. -/
namespace EmbeddedTemplate.DtuM35

open ByteMem Transition

variable (L : Layout)

/-- The complete records at the front of a sequence of bytes: a header of two bytes, the
second of which is the number of bytes that follow. -/
def recordsFuel : ℕ → List UInt8 → List (List UInt8)
  | fuel + 1, cmd :: n :: l =>
    if n.toNat ≤ l.length then
      (cmd :: n :: l.take n.toNat) :: recordsFuel fuel (l.drop n.toNat)
    else []
  | _, _ => []

def records (l : List UInt8) : List (List UInt8) := recordsFuel l.length l

/-- The commands that are stored in `cmd_rb` or being read or handled by `dtum35_run`. -/
def State.present (s : State) : List (List UInt8) :=
  match s.pc with
  | .param cmd paramLen =>
    (cmd :: paramLen :: s.cmdRb.content.take paramLen.toNat) ::
      records (s.cmdRb.content.drop paramLen.toNat)
  | .handle _ cmd paramLen param => (cmd :: paramLen :: param) :: records s.cmdRb.content
  | _ => records s.cmdRb.content

/-- A client that enqueued its command and still waits, although its command is gone. -/
def Lost (s : State) (c : Client) : Prop :=
  c ∈ s.clients ∧ c.waiting = true ∧ s.ret c.ret = pending ∧ c.record L ∉ s.present

variable {L} {s s' : State}

namespace Cmd

/-- The entry of `cmd_handle_maps` for a command. -/
def handle : Cmd → Handle
  | .send _ _ _ => .sendTcp
  | .connect _ _ => .connectTcp
  | .disconnect => .disconnectTcp

theorem size_le (c : Cmd) : c.size L ≤ L.unionSize := by
  cases c with
  | send => exact L.send_union
  | connect => exact L.connect_union
  | disconnect => exact L.disconnect_union

theorem toNat_size (c : Cmd) : (UInt8.ofNat (c.size L)).toNat = c.size L := by
  have h1 := c.size_le (L := L)
  have h2 := L.union_lt
  rw [UInt8.toNat_ofNat', Nat.mod_eq_of_lt (by omega)]

theorem getCmdHandle_code (c : Cmd) :
    getCmdHandle L c.code = some ⟨c.code, c.size L, c.handle⟩ := by
  cases c <;> rfl

@[simp] theorem length_paramBytes (c : Cmd) (stack : Mem) (ret : ℕ) :
    (c.paramBytes L stack ret).length = c.size L := by
  simp [paramBytes]

theorem retOff_le (c : Cmd) : c.handle.retOff L + L.ptrBytes ≤ c.size L := by
  have h := L.disconnect_le
  cases c with
  | send => exact L.send_le
  | connect => exact L.connect_le
  | disconnect => simpa [Handle.retOff, handle, size] using h

theorem handle_ret (c : Cmd) (stack : Mem) {ret : ℕ} (hret : ret < 256 ^ L.ptrBytes) :
    c.handle.ret L (c.paramBytes L stack ret) = ret := by
  have hle := c.retOff_le (L := L)
  have hload : c.handle.ret L (c.paramBytes L stack ret) =
      load (c.param L stack ret) L.ptrBytes (c.handle.retOff L) := by
    apply load_congr
    intro x _ hx
    have hlt : x < c.size L := by omega
    simp [paramBytes, List.getD_eq_getElem?_getD, hlt]
  have hself : load (c.param L stack ret) L.ptrBytes (c.handle.retOff L) =
      ret % 256 ^ L.ptrBytes := by
    cases c <;> exact load_store_self _ _ _ _
  rw [hload, hself, Nat.mod_eq_of_lt hret]

end Cmd

def Complete (r : List UInt8) : Prop := ∃ cmd n p, r = cmd :: n :: p ∧ p.length = n.toNat

theorem Cmd.record_complete (c : Cmd) (stack : Mem) (ret : ℕ) : Complete (c.record L stack ret) :=
  ⟨c.code, UInt8.ofNat (c.size L), c.paramBytes L stack ret, rfl, by
    rw [c.length_paramBytes, c.toNat_size]⟩

theorem recordsFuel_cons {r : List UInt8} (hr : Complete r) (fuel : ℕ) (l : List UInt8) :
    recordsFuel (fuel + 1) (r ++ l) = r :: recordsFuel fuel l := by
  obtain ⟨cmd, n, p, rfl, hp⟩ := hr
  simp only [List.cons_append, recordsFuel, List.length_append, hp]
  rw [if_pos (by omega), List.take_left' hp, List.drop_left' hp]

variable (L)

def Genuine (r : List UInt8) : Prop :=
  ∃ (c : Cmd) (stack : Mem) (ret : ℕ), ret < 256 ^ L.ptrBytes ∧ r = c.record L stack ret

variable {L}

theorem Genuine.complete {r : List UInt8} (h : Genuine L r) : Complete r := by
  obtain ⟨c, stack, ret, -, rfl⟩ := h
  exact c.record_complete stack ret

theorem records_flatten {rs : List (List UInt8)} (h : ∀ r ∈ rs, Complete r) :
    records rs.flatten = rs := by
  have hfuel : ∀ fuel, rs.flatten.length ≤ fuel → recordsFuel fuel rs.flatten = rs := by
    induction rs with
    | nil => intro fuel _; cases fuel <;> rfl
    | cons r rs ih =>
      intro fuel hle
      have hr := h r (by simp)
      have hpos : 2 ≤ r.length := by
        obtain ⟨cmd, n, p, rfl, -⟩ := hr
        simp
      rw [List.flatten_cons, List.length_append] at hle
      obtain ⟨fuel, rfl⟩ := Nat.exists_eq_succ_of_ne_zero (show fuel ≠ 0 by omega)
      rw [List.flatten_cons, recordsFuel_cons hr, ih (fun r hr => h r (List.mem_cons_of_mem _ hr))]
      omega
  exact hfuel _ le_rfl

/-- Where `dtum35_run` is, with the commands `rs` in the queue behind the one it is working
on. Each of them has one unit of the semaphore. -/
inductive At (L : Layout) (s : State) (rs : List (List UInt8)) : List (List UInt8) → Prop
  | idle (hpc : s.pc = .config ∨ s.pc = .pend ∨ s.pc = .clear)
      (hc : s.cmdRb.content = rs.flatten) (hsem : s.sem = rs.length) : At L s rs []
  | header (hpc : s.pc = .header) (hc : s.cmdRb.content = rs.flatten)
      (hsem : s.sem + 1 = rs.length) : At L s rs []
  | param (c : Cmd) (stack : Mem) (ret : ℕ) (hret : ret < 256 ^ L.ptrBytes)
      (hpc : s.pc = .param c.code (UInt8.ofNat (c.size L)))
      (hc : s.cmdRb.content = c.paramBytes L stack ret ++ rs.flatten)
      (hsem : s.sem = rs.length) : At L s rs [c.record L stack ret]
  | handle (c : Cmd) (stack : Mem) (ret : ℕ) (hret : ret < 256 ^ L.ptrBytes)
      (hpc : s.pc = .handle c.handle c.code (UInt8.ofNat (c.size L)) (c.paramBytes L stack ret))
      (hc : s.cmdRb.content = rs.flatten) (hsem : s.sem = rs.length) :
      At L s rs [c.record L stack ret]

theorem record_ret {c d : Cmd} {m m' : Mem} {a b : ℕ} (ha : a < 256 ^ L.ptrBytes)
    (hb : b < 256 ^ L.ptrBytes) (h : c.record L m a = d.record L m' b) : a = b := by
  simp only [Cmd.record, Cmd.info, List.cons_append, List.nil_append, List.cons.injEq] at h
  obtain ⟨hcode, -, hparam⟩ := h
  have hhandle : c.handle = d.handle := by
    have hc := c.getCmdHandle_code (L := L)
    rw [hcode, d.getCmdHandle_code] at hc
    exact (congrArg HandleMap.handle (Option.some.inj hc)).symm
  rw [← c.handle_ret m ha, ← d.handle_ret m' hb, hparam, hhandle]

variable {rs cur : List (List UInt8)} {c : Client}

theorem At.present_eq (h : At L s rs cur) (hg : ∀ r ∈ rs, Genuine L r) :
    s.present = cur ++ rs := by
  have hrec := records_flatten fun r hr => (hg r hr).complete
  cases h with
  | idle hpc hc hsem =>
    rcases hpc with hpc | hpc | hpc <;> rw [State.present, hpc, hc, List.nil_append] <;> exact hrec
  | header hpc hc hsem =>
    rw [State.present, hpc, hc, List.nil_append]
    exact hrec
  | param c stack ret hret hpc hc hsem =>
    have hlen := c.length_paramBytes (L := L) stack ret
    simp only [State.present, hpc, hc, c.toNat_size, List.take_left' hlen, List.drop_left' hlen,
      hrec]
    rfl
  | handle c stack ret hret hpc hc hsem =>
    simp only [State.present, hpc, hc, hrec]
    rfl

variable (L)

/-- No command of a waiting client is lost. -/
structure Inv (s : State) (rs cur : List (List UInt8)) : Prop where
  rb : s.cmdRb.Inv
  cap : s.cmdRb.cap = 100
  genuine : ∀ r ∈ rs, Genuine L r
  at_ : At L s rs cur
  ret_lt : ∀ c ∈ s.clients, c.ret < 256 ^ L.ptrBytes
  kept : ∀ c ∈ s.clients, c.waiting = true → s.ret c.ret = pending → c.record L ∈ cur ++ rs

/-- The number of bytes that `dtum35_run` is about to read as parameters. -/
def Pc.paramLen? : Pc → Option ℕ
  | .param _ paramLen => some paramLen.toNat
  | _ => none

/-- The step does not reach one of the places where a command gets lost: a command is
written where it fits, a part of a command is read where it would fit once more, and
`ringbuffer_clear` finds the queue empty. -/
def Safe (s : State) : Act → Prop
  | .enqueue i => ∀ c ∈ s.clients[i]?, c.cmd.size L + 2 ≤ s.cmdRb.cap - s.cmdRb.len
  | .readHeader => s.cmdRb.len + 2 ≤ s.cmdRb.cap
  | .readParam => ∀ n ∈ s.pc.paramLen?, s.cmdRb.len + n ≤ s.cmdRb.cap
  | .clear => s.cmdRb.len = 0
  | _ => True

instance Safe.decidable (s : State) : ∀ a, Decidable (Safe L s a)
  | .enqueue i => inferInstanceAs (Decidable
      (∀ c ∈ s.clients[i]?, c.cmd.size L + 2 ≤ s.cmdRb.cap - s.cmdRb.len))
  | .readHeader => inferInstanceAs (Decidable (s.cmdRb.len + 2 ≤ s.cmdRb.cap))
  | .readParam =>
    inferInstanceAs (Decidable (∀ n ∈ s.pc.paramLen?, s.cmdRb.len + n ≤ s.cmdRb.cap))
  | .clear => inferInstanceAs (Decidable (s.cmdRb.len = 0))
  | .call _ _ _ | .finish _ | .config _ | .pend _ | .handle _ => isTrue trivial

variable {L}

theorem At.same (h : At L s rs cur) (hrb : s'.cmdRb = s.cmdRb) (hsem' : s'.sem = s.sem)
    (hpc' : s'.pc = s.pc) : At L s' rs cur := by
  cases h with
  | idle hpc hc hsem => exact .idle (hpc'.symm ▸ hpc) (hrb ▸ hc) (hsem' ▸ hsem)
  | header hpc hc hsem => exact .header (hpc' ▸ hpc) (hrb ▸ hc) (hsem' ▸ hsem)
  | param c stack ret hret hpc hc hsem =>
    exact .param c stack ret hret (hpc' ▸ hpc) (hrb ▸ hc) (hsem' ▸ hsem)
  | handle c stack ret hret hpc hc hsem =>
    exact .handle c stack ret hret (hpc' ▸ hpc) (hrb ▸ hc) (hsem' ▸ hsem)

theorem At.push (h : At L s rs cur) {r : List UInt8} (hpc' : s'.pc = s.pc)
    (hrb : s'.cmdRb.content = s.cmdRb.content ++ r) (hsem' : s'.sem = s.sem + 1) :
    At L s' (rs ++ [r]) cur := by
  have hflat : (rs ++ [r]).flatten = rs.flatten ++ r := by simp
  have hlen : (rs ++ [r]).length = rs.length + 1 := by simp
  cases h with
  | idle hpc hc hsem =>
    exact .idle (hpc'.symm ▸ hpc) (by rw [hrb, hc, hflat]) (by rw [hsem', hsem, hlen])
  | header hpc hc hsem =>
    exact .header (hpc' ▸ hpc) (by rw [hrb, hc, hflat]) (by rw [hsem', hsem, hlen])
  | param c stack ret hret hpc hc hsem =>
    refine .param c stack ret hret (hpc' ▸ hpc) ?_ (by rw [hsem', hsem, hlen])
    rw [hrb, hc, hflat, List.append_assoc]
  | handle c stack ret hret hpc hc hsem =>
    exact .handle c stack ret hret (hpc' ▸ hpc) (by rw [hrb, hc, hflat]) (by rw [hsem', hsem, hlen])

theorem write_record {rb : Ringbuffer} (h : rb.Inv) (c : Client) (hroom : c.cmd.size L + 2 ≤ rb.cap - rb.len) :
    let rb' := ((rb.write (c.cmd.info L)).2.write (c.cmd.paramBytes L c.stack c.ret)).2
    rb'.Inv ∧ rb'.cap = rb.cap ∧ rb'.content = rb.content ++ c.record L := by
  obtain ⟨hinv, hcap, -, hcont⟩ := Ringbuffer.write_of_le h
    (show (c.cmd.info L).length ≤ rb.cap - rb.len by simp [Cmd.info]; omega)
  have hlen := congrArg List.length hcont
  simp only [Ringbuffer.length_content, List.length_append, Cmd.info, List.length_cons,
    List.length_nil] at hlen
  obtain ⟨hinv', hcap', -, hcont'⟩ := Ringbuffer.write_of_le hinv
    (show (c.cmd.paramBytes L c.stack c.ret).length ≤ _ by
      rw [Cmd.length_paramBytes, hcap]
      simp only [Cmd.info]
      omega)
  refine ⟨hinv', by rw [hcap', hcap], ?_⟩
  rw [hcont', hcont, List.append_assoc]
  rfl

/-- Both reads of `dtum35_run` where the part they read would fit once more. -/
theorem readHeaderStep_of_record (hrb : s.cmdRb.Inv) (hpc : s.pc = .header)
    (hfree : s.cmdRb.len + 2 ≤ s.cmdRb.cap) {c : Cmd} {stack : Mem} {ret : ℕ} {rest : List UInt8}
    (hc : s.cmdRb.content = c.record L stack ret ++ rest) :
    ∃ rb : Ringbuffer, rb.Inv ∧ rb.cap = s.cmdRb.cap ∧ rb.content = c.paramBytes L stack ret ++ rest ∧
      readHeaderStep L s =
        some { s with cmdRb := rb, pc := .param c.code (UInt8.ofNat (c.size L)) } := by
  have hsplit : s.cmdRb.content = c.info L ++ (c.paramBytes L stack ret ++ rest) := by
    rw [hc, Cmd.record, List.append_assoc]
  obtain ⟨hr, hb, hcont⟩ := Ringbuffer.read_of_append hrb (p := c.info L) hfree hsplit
  obtain ⟨hinv, hcap⟩ := Ringbuffer.read_inv hrb (show 2 < 2 ^ 16 by omega)
  have hfit : ¬ L.unionSize < (UInt8.ofNat (c.size L)).toNat := by
    rw [c.toNat_size]
    exact Nat.not_lt.mpr c.size_le
  refine ⟨_, hinv, hcap, hcont, ?_⟩
  change (s.cmdRb.read 2).ret = 2 at hr
  change (s.cmdRb.read 2).bytes = c.info L at hb
  simp only [readHeaderStep, hpc, hr, hb, Cmd.info, List.getD_cons_zero, List.getD_cons_succ,
    ne_eq, not_true, if_false, if_neg hfit]

theorem readParamStep_of_record (hrb : s.cmdRb.Inv) {c : Cmd}
    (hpc : s.pc = .param c.code (UInt8.ofNat (c.size L))) (hsafe : Safe L s .readParam)
    {stack : Mem} {ret : ℕ} {rest : List UInt8}
    (hc : s.cmdRb.content = c.paramBytes L stack ret ++ rest) :
    ∃ rb : Ringbuffer, rb.Inv ∧ rb.cap = s.cmdRb.cap ∧ rb.content = rest ∧
      readParamStep L s = some { s with
        cmdRb := rb
        pc := .handle c.handle c.code (UInt8.ofNat (c.size L)) (c.paramBytes L stack ret) } := by
  have hlen := c.length_paramBytes (L := L) stack ret
  simp only [Safe, hpc, Pc.paramLen?, c.toNat_size, Option.mem_def, Option.some.injEq,
    forall_eq'] at hsafe
  have hlt := L.union_lt
  have hle := c.size_le (L := L)
  obtain ⟨hr, hb, hcont⟩ := Ringbuffer.read_of_append hrb (by rwa [hlen]) hc
  obtain ⟨hinv, hcap⟩ := Ringbuffer.read_inv hrb (show c.size L < 2 ^ 16 by omega)
  rw [hlen] at hr hb hcont
  refine ⟨_, hinv, hcap, hcont, ?_⟩
  simp only [readParamStep, hpc, c.toNat_size, hr, hb, c.getCmdHandle_code, ne_eq, not_true,
    if_false]

namespace Inv

theorem call (h : Inv L s rs cur) {cmd : Cmd} {ret : ℕ} {stack : Mem}
    (hs : callStep L s cmd ret stack = some s') : Inv L s' rs cur := by
  obtain ⟨⟨hlt, hfresh⟩, hs⟩ := Option.ite_none_right_eq_some.mp hs
  by_cases hfull : s.cmdRb.getLeftSpace < cmd.size L + 2
  · rw [if_pos hfull] at hs
    cases hs
    exact h
  · rw [if_neg hfull] at hs
    cases hs
    refine ⟨h.rb, h.cap, h.genuine, h.at_.same rfl rfl rfl, ?_, ?_⟩
    · intro c hc
      rcases List.mem_append.mp hc with hc | hc
      · exact h.ret_lt c hc
      · rw [List.mem_singleton.mp hc]
        exact hlt
    · intro c hc hwait hpend
      rcases List.mem_append.mp hc with hc | hc
      · have hne : c.ret ≠ ret := fun he => hfresh (he ▸ List.mem_map_of_mem hc)
        simp only [Function.update_of_ne hne] at hpend
        exact h.kept c hc hwait hpend
      · rw [List.mem_singleton.mp hc] at hwait
        cases hwait

theorem enqueue (h : Inv L s rs cur) {i : ℕ} (hi : s.clients[i]? = some c)
    (hroom : c.cmd.size L + 2 ≤ s.cmdRb.cap - s.cmdRb.len)
    (hs : enqueueStep L s i c = some s') : Inv L s' (rs ++ [c.record L]) cur := by
  obtain ⟨-, hs⟩ := Option.ite_none_left_eq_some.mp hs
  cases hs
  obtain ⟨hinv, hcap, hcont⟩ := write_record h.rb c hroom
  have hmem := List.mem_of_getElem? hi
  refine ⟨hinv, hcap.trans h.cap, ?_, h.at_.push rfl hcont rfl, ?_, ?_⟩
  · intro r hr
    rcases List.mem_append.mp hr with hr | hr
    · exact h.genuine r hr
    · exact ⟨c.cmd, c.stack, c.ret, h.ret_lt c hmem, List.mem_singleton.mp hr⟩
  · intro d hd
    rcases List.mem_or_eq_of_mem_set hd with hd | rfl
    · exact h.ret_lt d hd
    · exact h.ret_lt c hmem
  · intro d hd hwait hpend
    rw [← List.append_assoc]
    rcases List.mem_or_eq_of_mem_set hd with hd | rfl
    · exact List.mem_append_left _ (h.kept d hd hwait hpend)
    · exact List.mem_append_right _ (List.mem_singleton.mpr rfl)

theorem finish (h : Inv L s rs cur) {i : ℕ} (hs : finishStep s i c = some s') :
    Inv L s' rs cur := by
  obtain ⟨-, hs⟩ := Option.ite_none_right_eq_some.mp hs
  cases hs
  refine ⟨h.rb, h.cap, h.genuine, h.at_.same rfl rfl rfl, ?_, ?_⟩
  · exact fun d hd => h.ret_lt d (List.mem_of_mem_eraseIdx hd)
  · exact fun d hd => h.kept d (List.mem_of_mem_eraseIdx hd)

theorem goto (h : Inv L s rs cur) {rs' cur' : List (List UInt8)} {rb : Ringbuffer} {sem : ℕ}
    {pc : Pc} (hinv : rb.Inv) (hcap : rb.cap = s.cmdRb.cap) (hsub : ∀ r ∈ rs', r ∈ rs)
    (hat : At L { s with cmdRb := rb, sem, pc } rs' cur') (heq : cur' ++ rs' = cur ++ rs) :
    Inv L { s with cmdRb := rb, sem, pc } rs' cur' where
  rb := hinv
  cap := hcap.trans h.cap
  genuine := fun r hr => h.genuine r (hsub r hr)
  at_ := hat
  ret_lt := h.ret_lt
  kept := heq ▸ h.kept

theorem config (h : Inv L s rs cur) {ok : Bool} (hs : step L s (.config ok) = some s') :
    Inv L s' rs cur := by
  cases h.at_ with
  | idle hpc hc hsem =>
    simp only [step] at hs
    split at hs
    · cases hs
      refine h.goto h.rb rfl (fun _ hr => hr) (.idle ?_ hc hsem) rfl
      cases ok <;> simp
    · cases hs
  | header hpc | param _ _ _ _ hpc | handle _ _ _ _ hpc =>
    simp only [step, hpc] at hs
    cases hs

theorem pend (h : Inv L s rs cur) {ok : Bool} (hs : pendStep s ok = some s') :
    Inv L s' rs cur := by
  cases h.at_ with
  | idle hpc hc hsem =>
    unfold pendStep at hs
    split at hs
    · next k _ _ hk =>
      cases hs
      exact h.goto h.rb rfl (fun _ hr => hr) (.header rfl hc (by rw [← hsem, hk])) rfl
    · next _ _ hk =>
      cases hs
      exact h.goto h.rb rfl (fun _ hr => hr) (.idle (by simp) hc hsem) rfl
    · cases hs
  | header hpc | param _ _ _ _ hpc | handle _ _ _ _ hpc =>
    simp only [pendStep, hpc] at hs
    cases hs

theorem readHeader (h : Inv L s rs cur) (hfree : s.cmdRb.len + 2 ≤ s.cmdRb.cap)
    (hs : readHeaderStep L s = some s') : ∃ rs' cur', Inv L s' rs' cur' := by
  cases h.at_ with
  | header hpc hc hsem =>
    cases rs with
    | nil => simp at hsem
    | cons r rs =>
      obtain ⟨c, stack, ret, hret, rfl⟩ := h.genuine r (by simp)
      rw [List.flatten_cons] at hc
      obtain ⟨rb, hinv, hcap, hcont, hstep⟩ := readHeaderStep_of_record h.rb hpc hfree hc
      rw [hstep] at hs
      cases hs
      refine ⟨rs, [c.record L stack ret], h.goto hinv hcap (fun _ hm => by simp [hm]) ?_ rfl⟩
      exact .param c stack ret hret rfl hcont (by simpa using hsem)
  | idle hpc =>
    rcases hpc with hpc | hpc | hpc <;> simp only [readHeaderStep, hpc] at hs <;> cases hs
  | param _ _ _ _ hpc | handle _ _ _ _ hpc =>
    simp only [readHeaderStep, hpc] at hs
    cases hs

theorem readParam (h : Inv L s rs cur) (hsafe : Safe L s .readParam)
    (hs : readParamStep L s = some s') : Inv L s' rs cur := by
  cases h.at_ with
  | param c stack ret hret hpc hc hsem =>
    obtain ⟨rb, hinv, hcap, hcont, hstep⟩ := readParamStep_of_record h.rb hpc hsafe hc
    rw [hstep] at hs
    cases hs
    exact h.goto hinv hcap (fun _ hm => hm) (.handle c stack ret hret rfl hcont hsem) rfl
  | idle hpc =>
    rcases hpc with hpc | hpc | hpc <;> simp only [readParamStep, hpc] at hs <;> cases hs
  | header hpc | handle _ _ _ _ hpc =>
    simp only [readParamStep, hpc] at hs
    cases hs

theorem handle (h : Inv L s rs cur) {ok : Bool} (hs : handleStep L s ok = some s') :
    Inv L s' rs [] := by
  cases h.at_ with
  | handle c stack ret hret hpc hc hsem =>
    simp only [handleStep, hpc, c.handle_ret stack hret] at hs
    cases hs
    refine ⟨h.rb, h.cap, h.genuine, .idle (by simp) hc hsem, h.ret_lt, ?_⟩
    intro d hd hwait hpend
    by_cases hne : d.ret = ret
    · -- the answer ends the wait of the client it is for
      simp only [hne, Function.update_self] at hpend
      cases ok <;> cases hpend
    · simp only [Function.update_of_ne hne] at hpend
      rcases List.mem_append.mp (h.kept d hd hwait hpend) with hm | hm
      · have hrec : d.record L = c.record L stack ret := List.mem_singleton.mp hm
        exact absurd (record_ret (h.ret_lt d hd) hret hrec) hne
      · exact hm
  | idle hpc =>
    rcases hpc with hpc | hpc | hpc <;> simp only [handleStep, hpc] at hs <;> cases hs
  | header hpc | param _ _ _ _ hpc =>
    simp only [handleStep, hpc] at hs
    cases hs

theorem clear (h : Inv L s rs cur) (hempty : s.cmdRb.len = 0)
    (hs : step L s .clear = some s') : Inv L s' rs cur := by
  cases h.at_ with
  | idle hpc hc hsem =>
    have hnil : s.cmdRb.content = [] :=
      List.eq_nil_of_length_eq_zero (by rw [Ringbuffer.length_content, hempty])
    simp only [step] at hs
    split at hs
    · cases hs
      refine h.goto (Ringbuffer.clear_inv h.rb) rfl (fun _ hr => hr) (.idle (by simp) ?_ hsem) rfl
      rw [← hc, hnil]
      rfl
    · cases hs
  | header hpc | param _ _ _ _ hpc | handle _ _ _ _ hpc =>
    simp only [step, hpc] at hs
    cases hs

theorem step (h : Inv L s rs cur) {a : Act} (ha : Safe L s a) (hs : step L s a = some s') :
    ∃ rs' cur', Inv L s' rs' cur' := by
  cases a with
  | call cmd ret stack => exact ⟨_, _, h.call hs⟩
  | enqueue i =>
    obtain ⟨c, hi, hs⟩ := Option.bind_eq_some_iff.mp hs
    exact ⟨_, _, h.enqueue hi (ha c hi) hs⟩
  | finish i =>
    obtain ⟨c, hi, hs⟩ := Option.bind_eq_some_iff.mp hs
    exact ⟨_, _, h.finish hs⟩
  | config ok => exact ⟨_, _, h.config hs⟩
  | pend ok => exact ⟨_, _, h.pend hs⟩
  | readHeader => exact h.readHeader ha hs
  | readParam => exact ⟨_, _, h.readParam ha hs⟩
  | handle ok => exact ⟨_, _, h.handle hs⟩
  | clear => exact ⟨_, _, h.clear ha hs⟩

end Inv

theorem init_inv (L : Layout) : Inv L init [] [] where
  rb := Ringbuffer.init_inv _ (by decide)
  cap := rfl
  genuine := by simp
  at_ := .idle (Or.inl rfl) rfl rfl
  ret_lt := by simp [init]
  kept := by simp [init]

/-- In every schedule of the critical sections of any number of clients with the steps of
`dtum35_run` that stays safe, no waiting client has lost its command. -/
theorem no_command_lost (L : Layout) {as : List Act} {s : State}
    (h : AllSteps (step L) (Safe L) init as) (hrun : run (step L) init as = some s) (c : Client) :
    ¬ Lost L s c := by
  obtain ⟨rs, cur, hinv⟩ := run_invariant (I := fun s => ∃ rs cur, Inv L s rs cur)
    (fun _ _ _ ⟨_, _, hI⟩ ha hs => hI.step ha hs) ⟨[], [], init_inv L⟩ h hrun
  rintro ⟨hmem, hwait, hpend, hgone⟩
  rw [hinv.at_.present_eq hinv.genuine] at hgone
  exact hgone (hinv.kept c hmem hwait hpend)

/-- Two clients, one command being read and one in the queue. -/
theorem no_command_lost_two :
    ∃ s ∈ run (step .lp64) init
        [.config true, .call (.send 100 5 1000) 200 fun _ => 0, .call .disconnect 300 fun _ => 0,
          .enqueue 1, .enqueue 0, .pend true, .readHeader],
      ∀ c ∈ s.clients, c.waiting = true ∧ s.ret c.ret = pending ∧ ¬ Lost .lp64 s c := by
  have hrun : ∃ s ∈ run (step .lp64) init
      [.config true, .call (.send 100 5 1000) 200 fun _ => 0, .call .disconnect 300 fun _ => 0,
        .enqueue 1, .enqueue 0, .pend true, .readHeader],
      ∀ c ∈ s.clients, c.waiting = true ∧ s.ret c.ret = pending := by decide +kernel
  obtain ⟨s, hs, hwait⟩ := hrun
  refine ⟨s, hs, fun c hc => ⟨(hwait c hc).1, (hwait c hc).2, ?_⟩⟩
  exact no_command_lost .lp64 (by decide +kernel) hs c

/-- The pend of `dtum35_run` times out, a client enqueues its command, and
`ringbuffer_clear` removes it. -/
theorem cleared_after_timeout_lost :
    ∃ s ∈ run (step .lp64) init
        [.config true, .pend false, .call (.send 100 5 1000) 200 fun _ => 0, .enqueue 0, .clear],
      ∃ c, Lost .lp64 s c := by
  have hrun : ∃ s ∈ run (step .lp64) init
      [.config true, .pend false, .call (.send 100 5 1000) 200 fun _ => 0, .enqueue 0, .clear],
      ∃ c ∈ s.clients, c.waiting = true ∧ s.ret c.ret = pending ∧
        c.record .lp64 ∉ s.present := by decide +kernel
  obtain ⟨s, hs, c, hlost⟩ := hrun
  exact ⟨s, hs, c, hlost⟩

end EmbeddedTemplate.DtuM35
