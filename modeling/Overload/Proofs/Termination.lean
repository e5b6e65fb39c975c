import Overload.Proofs.Copying
import Overload.Proofs.Unification

/-!
# Recursion without a bound

The walks over terms and unification count down from a bound on their depth, and answer something
when it is used up. In `Unrolled` they are the bare recursions, with their calls unrolled to any
depth; where calls are left over there is no result. A recursion ends if it has a result, and the
same one, from some depth on (`HasResult`). A chain of links that runs in a circle has none at any
depth: following links ends exactly where the chain does (`Unrolled.exists_hasResult_chase_iff`).

Over a store without a cycle all the recursions end, and with the result of the bounded ones
(`recursion_terminates`). What falls from call to call is the depth that the bound leaves. For a
walk it exceeds the height of the resolved term, which reading does not change. Unification links
variables as it goes, so that the terms still to come grow; there the count is that of
`Store.Ready`.
-/

namespace Overload

/-- Computations on a store that may be cut short, and then have no result. -/
abbrev Walk := StateT Store Option

/-- Inference that may be cut short. A failure keeps the session as it is then. -/
abbrev OpenInfer := ExceptT TypeError (StateT Session Option)

instance : MonadLift StoreM Walk where
  monadLift x s := some (x s)

instance : MonadLift Walk OpenInfer where
  monadLift w σ := (w σ.store).map fun (a, store) => (.ok a, { σ with store })

/-- What is computed at each depth of calls is `r` from some depth on. -/
def HasResult (f : Nat → Option α) (r : α) : Prop := ∃ N, ∀ n, N ≤ n → f n = some r

namespace HasResult

theorem of_eq {f : Nat → Option α} {r : α} (h : ∀ n, f n = some r) : HasResult f r :=
  ⟨0, fun n _ => h n⟩

/-- One call more does not matter. -/
theorem deeper {f : Nat → Option α} {r : α} (h : HasResult (fun n => f (n + 1)) r) :
    HasResult f r := by
  obtain ⟨N, hN⟩ := h
  refine ⟨N + 1, fun n hn => ?_⟩
  obtain ⟨m, rfl⟩ := Nat.exists_eq_add_of_lt (Nat.lt_of_succ_le hn)
  exact hN (N + m) (Nat.le_add_right N m)

theorem bind {f : Nat → Option α} {a : α} {g : Nat → α → Option β} {b : β} (hf : HasResult f a)
    (hg : HasResult (g · a) b) : HasResult (fun n => (f n).bind (g n)) b := by
  obtain ⟨N, hN⟩ := hf
  obtain ⟨M, hM⟩ := hg
  refine ⟨max N M, fun n hn => ?_⟩
  show (f n).bind (g n) = some b
  rw [hN n (Nat.le_trans (Nat.le_max_left N M) hn)]
  exact hM n (Nat.le_trans (Nat.le_max_right N M) hn)

theorem map {f : Nat → Option α} {a : α} (hf : HasResult f a) (g : α → β) :
    HasResult (fun n => (f n).map g) (g a) := by
  obtain ⟨N, hN⟩ := hf
  exact ⟨N, fun n hn => congrArg (Option.map g) (hN n hn)⟩

end HasResult

namespace Unrolled

/-! ## The recursions -/

/-- The end of the chain of links, and the store with the chain shortened. -/
def chase : Nat → Store → Ty → Option (Ty × Store)
  | 0, _, _ => none
  | n + 1, s, t => do
      match t with
      | .var v =>
          match s.link? v with
          | some t =>
              let (r, s') ← chase n s t
              return (r, s'.setLink v r)
          | none => return (.var v, s)
      | .con c args => return (.con c args, s)

def prune (n : Nat) (t : Ty) : Walk Ty := fun s => chase n s t

def freeVars : Nat → List Var → Ty → Walk (List Var)
  | 0, _, _ => failure
  | n + 1, found, t => do
      match ← prune n t with
      | .var v => return if v ∈ found then found else found ++ [v]
      | .con _ args => args.foldlM (freeVars n) found

def equal : Nat → Ty → Ty → Walk Bool
  | 0, _, _ => failure
  | n + 1, t, u => do
      let t ← prune n t
      let u ← prune n u
      match t, u with
      | .var v, .var w => return v = w
      | .con c as, .con d bs =>
          if c = d ∧ as.length = bs.length then
            (as.zip bs).allM fun (a, b) => equal n a b
          else
            return false
      | _, _ => return false

def occursIn (v : Var) : Nat → Ty → Walk Bool
  | 0, _ => failure
  | n + 1, t => do
      match ← prune n t with
      | .var w => return w = v
      | .con _ args => args.anyM (occursIn v n)

def isGeneric (n : Nat) (v : Var) (fixed : List Var) : Walk Bool :=
  return !(← (fixed.map Ty.var).anyM (occursIn v n))

def display : Nat → Position → Ty → Walk String
  | 0, _, _ => failure
  | n + 1, pos, t => do
      match ← prune n t with
      | .var v => v.name
      | .con .arrow [domain, codomain] =>
          let left ← display n .arrowLeft domain
          let right ← display n .top codomain
          let text := left ++ " -> " ++ right
          return if pos = .top then text else parenthesize text
      | .con .tuple args =>
          return parenthesize (", ".intercalate (← args.mapM (display n .top)))
      | .con c args =>
          let text := " ".intercalate (c.name :: (← args.mapM (display n .argument)))
          return if pos = .argument ∧ args ≠ [] then parenthesize text else text

def copy (fixed : List Var) (p : SupplyId) : Nat → Ty → StateT Renaming Walk Ty
  | 0, _ => failure
  | n + 1, t => do
      match ← prune n t with
      | .var v =>
          if ← isGeneric n v fixed then
            match (← get).lookup v with
            | some w => return .var w
            | none =>
                let w ← p.fresh
                modify ((v, w) :: ·)
                return .var w
          else
            return .var v
      | .con c args => return .con c (← args.mapM (copy fixed p n))

def announce (n : Nat) (l r : Ty) : OpenInfer Unit := do
  if (← getThe Session).trace.enabled .unify then
    let left ← display n .top l
    let right ← display n .top r
    modifyThe Session (·.emit (.unify left right))

def bind (n : Nat) (v : Var) (t : Ty) : OpenInfer Unit := do
  match t with
  | .var w => if v = w then return else v.link t
  | .con .. =>
      if ← occursIn v n t then
        let var ← display n .top (.var v)
        let ty ← display n .top t
        throw (.recursive var ty)
      else
        v.link t

def unify : Nat → Ty → Ty → OpenInfer Unit
  | 0, _, _ => fun _ => none
  | n + 1, l, r => do
      let l ← prune n l
      let r ← prune n r
      announce n l r
      match l, r with
      | .var v, _ => bind n v r
      | .con .., .var _ => unify n r l
      | .con c as, .con d bs =>
          if c = d ∧ as.length = bs.length then
            (as.zip bs).forM fun (a, b) => unify n a b
          else
            let expected ← display n .top l
            let found ← display n .top r
            throw (.mismatch expected found)

end Unrolled

/-! ## Walks that end -/

namespace Walk

/-- From every store in `I` the walk ends as `x` does, with a value in `A` and a store in `I`. -/
def EndsAs (I : Store → Prop) (w : Nat → Walk α) (x : StoreM α) (A : α → Prop) : Prop :=
  ∀ s, I s → HasResult (w · s) (x s) ∧ A (x s).1 ∧ I (x s).2

namespace EndsAs

variable {α β : Type} {I : Store → Prop} {A : α → Prop} {B : β → Prop}

theorem pure {a : α} (h : A a) : EndsAs I (fun _ => pure a) (pure a) A :=
  fun _ hs => ⟨.of_eq fun _ => rfl, h, hs⟩

theorem of_reads {s : Store} {w : Nat → Walk α} {x : StoreM α} (hx : s.Reads x A)
    (hw : ∀ s', s.Quiet s' → HasResult (w · s') (x s')) : EndsAs s.Quiet w x A :=
  fun s' hs' => ⟨hw s' hs', hx s' hs'⟩

theorem deeper {w : Nat → Walk α} {x : StoreM α} (h : EndsAs I (fun n => w (n + 1)) x A) :
    EndsAs I w x A := by
  intro s hs
  obtain ⟨hend, ha, hI⟩ := h s hs
  exact ⟨hend.deeper, ha, hI⟩

theorem bind {w : Nat → Walk α} {x : StoreM α} {g : Nat → α → Walk β} {f : α → StoreM β}
    (hw : EndsAs I w x A) (hg : ∀ a, A a → EndsAs I (g · a) (f a) B) :
    EndsAs I (fun n => w n >>= g n) (x >>= f) B := by
  intro s hs
  obtain ⟨hend, ha, hI⟩ := hw s hs
  obtain ⟨hend', hb, hI'⟩ := hg _ ha _ hI
  exact ⟨hend.bind hend', hb, hI'⟩

section lists

variable {γ : Type} {xs : List γ}

theorem mapM {g : Nat → γ → Walk β} {f : γ → StoreM β}
    (h : ∀ c ∈ xs, EndsAs I (g · c) (f c) B) :
    EndsAs I (fun n => xs.mapM (g n)) (xs.mapM f) fun _ => True := by
  induction xs with
  | nil => exact .pure trivial
  | cons c xs ih =>
      rw [List.forall_mem_cons] at h
      simp only [List.mapM_cons]
      exact h.1.bind fun b _ => (ih h.2).bind fun bs _ => .pure trivial

theorem foldlM {g : Nat → β → γ → Walk β} {f : β → γ → StoreM β}
    (h : ∀ b, ∀ c ∈ xs, EndsAs I (g · b c) (f b c) fun _ => True) (b : β) :
    EndsAs I (fun n => xs.foldlM (g n) b) (xs.foldlM f b) fun _ => True := by
  induction xs generalizing b with
  | nil => exact .pure trivial
  | cons c xs ih =>
      simp only [List.foldlM_cons]
      refine (h b c (List.mem_cons_self ..)).bind fun b' _ => ?_
      exact ih (fun b d hd => h b d (List.mem_cons_of_mem _ hd)) b'

theorem anyM {g : Nat → γ → Walk Bool} {f : γ → StoreM Bool}
    (h : ∀ c ∈ xs, EndsAs I (g · c) (f c) fun _ => True) :
    EndsAs I (fun n => xs.anyM (g n)) (xs.anyM f) fun _ => True := by
  induction xs with
  | nil => exact .pure trivial
  | cons c xs ih =>
      rw [List.forall_mem_cons] at h
      simp only [List.anyM]
      refine h.1.bind fun b _ => ?_
      cases b with
      | true => exact .pure trivial
      | false => exact ih h.2

theorem allM {g : Nat → γ → Walk Bool} {f : γ → StoreM Bool}
    (h : ∀ c ∈ xs, EndsAs I (g · c) (f c) fun _ => True) :
    EndsAs I (fun n => xs.allM (g n)) (xs.allM f) fun _ => True := by
  induction xs with
  | nil => exact .pure trivial
  | cons c xs ih =>
      rw [List.forall_mem_cons] at h
      simp only [List.allM]
      refine h.1.bind fun b _ => ?_
      cases b with
      | true => exact ih h.2
      | false => exact .pure trivial

end lists

/-- The bound that a walk is given is always enough. -/
theorem bounded {s : Store} (hs : s.WellFormed) {ts : List Ty} {w : Nat → Walk α}
    {walk : Nat → StoreM α}
    (h : ∀ n, (∀ t ∈ ts, (s.resolve t).height < n) → EndsAs s.Quiet w (walk n) A) :
    EndsAs s.Quiet w (Ty.bounded ts walk) A := by
  intro s' hs'
  refine h (s'.budget ts) (fun t ht => ?_) s' hs'
  rw [← hs'.toAlike.resolve_eq hs t]
  exact s'.height_resolve_lt_budget ht

/-! With a renaming beside the store. -/

theorem lift_bind {w : Nat → Walk α} {x : StoreM α} {g : Nat → α → StateT Renaming Walk β}
    {f : α → StateT Renaming StoreM β} {B : β × Renaming → Prop} (hw : EndsAs I w x A)
    (m : Renaming) (hg : ∀ a, A a → EndsAs I (g · a m) (f a m) B) :
    EndsAs I (fun n => (liftM (w n) >>= g n) m) ((liftM x >>= f) m) B := by
  intro s hs
  obtain ⟨hend, ha, hI⟩ := hw s hs
  obtain ⟨hend', hb, hI'⟩ := hg _ ha _ hI
  have hlift : HasResult (fun n => (w n s).bind fun r => some ((r.1, m), r.2))
      (((x s).1, m), (x s).2) := hend.bind (.of_eq fun _ => rfl)
  exact ⟨hlift.bind hend', hb, hI'⟩

theorem bind_run {y : Nat → StateT Renaming Walk α} {x : StateT Renaming StoreM α}
    {g : Nat → α → StateT Renaming Walk β} {f : α → StateT Renaming StoreM β} {m : Renaming}
    {B : β × Renaming → Prop} (hy : EndsAs I (y · m) (x m) fun _ => True)
    (hg : ∀ a m', EndsAs I (g · a m') (f a m') B) :
    EndsAs I (fun n => (y n >>= g n) m) ((x >>= f) m) B :=
  bind (g := fun n (r : α × Renaming) => g n r.1 r.2) (f := fun r : α × Renaming => f r.1 r.2) hy
    fun r _ => hg r.1 r.2

theorem get_bind {g : Nat → Renaming → StateT Renaming Walk β}
    {f : Renaming → StateT Renaming StoreM β} {m : Renaming} {B : β × Renaming → Prop}
    (hg : EndsAs I (g · m m) (f m m) B) :
    EndsAs I (fun n => (get >>= g n) m) ((get >>= f) m) B := hg

theorem mapM_run {g : Nat → Ty → StateT Renaming Walk Ty} {f : Ty → StateT Renaming StoreM Ty}
    {ts : List Ty} (h : ∀ t ∈ ts, ∀ m, EndsAs I (g · t m) (f t m) fun _ => True) (m : Renaming) :
    EndsAs I (fun n => ts.mapM (g n) m) (ts.mapM f m) fun _ => True := by
  induction ts generalizing m with
  | nil => exact .pure trivial
  | cons t ts ih =>
      rw [List.forall_mem_cons] at h
      simp only [List.mapM_cons]
      exact bind_run (h.1 m) fun r m' => bind_run (ih h.2 m') fun rs m'' => .pure trivial

/-- What ends after any amount of reading ends from every store that has grown. -/
theorem alike {s : Store} {w : Nat → Walk α} {x : StoreM α}
    (h : ∀ s', s.Alike s' → EndsAs s'.Quiet w x A) : EndsAs s.Alike w x A := by
  intro s' hs'
  obtain ⟨hend, ha, hq⟩ := h s' hs' s' (.refl hs'.wellFormed)
  exact ⟨hend, ha, hs'.trans hq.toAlike⟩

end EndsAs

end Walk

namespace Unrolled

open Walk

/-! ### Links -/

section links

variable {s : Store}

theorem hasResult_of_representative {r : Ty} (hr : s.Representative r) :
    HasResult (chase · s r) (r, s) := by
  refine .deeper (.of_eq fun n => ?_)
  cases r with
  | con c args => rfl
  | var v =>
      show chase (n + 1) s (.var v) = _
      rw [chase, hr]
      rfl

theorem hasResult_of_link {v : Var} {t : Ty} (hl : s.link? v = some t) {res : Ty × Store}
    (h : HasResult (chase · s t) res) :
    HasResult (chase · s (.var v)) (res.1, res.2.setLink v res.1) := by
  refine .deeper ?_
  simp only [chase, hl]
  exact h.bind (.of_eq fun _ => rfl)

/-- The end that a call gets to is the end of the chain. -/
theorem endsAt_of_chase {n : Nat} {t : Ty} {res : Ty × Store} (h : chase n s t = some res) :
    s.EndsAt t res.1 := by
  induction n generalizing t res with
  | zero => cases h
  | succ n ih =>
      cases t with
      | con c args =>
          obtain rfl := Option.some.inj h
          exact .here trivial
      | var v =>
          rw [chase] at h
          split at h
          · next t hl =>
              obtain ⟨res', h', h⟩ := Option.bind_eq_some_iff.mp h
              obtain rfl := Option.some.inj h
              have hend : s.EndsAt t res'.1 := ih h'
              exact .link hl hend
          · next hl =>
              obtain rfl := Option.some.inj h
              exact .here hl

/-- Following links ends where their chain has an end, and nowhere else. -/
theorem exists_hasResult_chase_iff {t : Ty} :
    (∃ res, HasResult (chase · s t) res) ↔ ∃ r, s.EndsAt t r := by
  constructor
  · rintro ⟨res, N, h⟩
    exact ⟨res.1, endsAt_of_chase (h N (Nat.le_refl N))⟩
  · rintro ⟨r, h⟩
    induction h with
    | here hr => exact ⟨_, hasResult_of_representative hr⟩
    | link hl _ ih =>
        obtain ⟨res, h⟩ := ih
        exact ⟨_, hasResult_of_link hl h⟩

/-- The induction is on the number of links left; the rank of the variable bounds them. -/
theorem hasResult_chase (hs : s.Acyclic) (n : Nat) {t : Ty}
    (hn : ∀ v, t = .var v → s.rank v ≤ n) : HasResult (chase · s t) (s.prune n t) := by
  induction n generalizing t with
  | zero =>
      cases t with
      | con c args => exact hasResult_of_representative trivial
      | var v =>
          cases hl : s.link? v with
          | none => exact hasResult_of_representative hl
          | some t =>
              have hpos := Store.rank_pos hl
              have hzero := hn v rfl
              omega
  | succ n ih =>
      cases t with
      | con c args => exact hasResult_of_representative trivial
      | var v =>
          rw [Store.prune]
          cases hl : s.link? v with
          | none => exact hasResult_of_representative hl
          | some t =>
              have hrank : ∀ w, t = .var w → s.rank w ≤ n := by
                rintro w rfl
                have hlt := Store.rank_lt hs ⟨_, hl, List.mem_singleton.mpr rfl⟩
                have hle := hn v rfl
                omega
              exact hasResult_of_link hl (ih hrank)

theorem hasResult_prune (hs : s.Acyclic) (t : Ty) : HasResult (prune · t s) (t.prune s) :=
  hasResult_chase hs s.size fun v _ => s.rank_le_size v

end links

/-! ### Readers -/

section readers

variable {s : Store} (hs : s.WellFormed)
include hs

theorem endsAs_prune (t : Ty) : EndsAs s.Quiet (prune · t) t.prune (s.Represents t) :=
  .of_reads (Store.reads_prune hs t) fun _ hs' => hasResult_prune hs'.wellFormed.acyclic t

/-- A walk that starts at the representative goes by the first constructor of the resolved
term. -/
theorem endsAs_prune_bind {t : Ty} {g : Nat → Ty → Walk α} {f : Ty → StoreM α} {A : α → Prop}
    (hvar : ∀ v, EndsAs s.Quiet (g · (.var v)) (f (.var v)) A)
    (hcon : ∀ c args, s.resolve t = .con c (args.map s.resolve) →
      EndsAs s.Quiet (g · (.con c args)) (f (.con c args)) A) :
    EndsAs s.Quiet (fun n => prune n t >>= g n) (t.prune >>= f) A := by
  refine (endsAs_prune hs t).bind fun r hr => ?_
  rcases hr.cases with ⟨v, rfl, -, -⟩ | ⟨c, args, rfl, ht⟩
  · exact hvar v
  · exact hcon c args ht

theorem endsAs_occursWithin (v : Var) (n : Nat) {t : Ty} (hn : (s.resolve t).height < n) :
    EndsAs s.Quiet (occursIn v · t) (v.occursWithin n t) fun _ => True := by
  induction n generalizing t with
  | zero => omega
  | succ n ih =>
      refine .deeper ?_
      simp only [occursIn, Var.occursWithin]
      refine endsAs_prune_bind hs (fun w => .pure trivial) fun c args ht => ?_
      exact EndsAs.anyM fun a ha => ih (Store.height_resolve_lt_of_mem ht hn ha)

theorem endsAs_occursIn (v : Var) (t : Ty) :
    EndsAs s.Quiet (occursIn v · t) (v.occursIn t) fun _ => True :=
  .bounded hs fun n hn => endsAs_occursWithin hs v n (hn t (List.mem_singleton.mpr rfl))

theorem endsAs_isGeneric (v : Var) (fixed : List Var) :
    EndsAs s.Quiet (isGeneric · v fixed) (v.isGeneric fixed) fun _ => True :=
  (EndsAs.anyM fun t _ => endsAs_occursIn hs v t).bind fun _ _ => .pure trivial

theorem endsAs_freeVarsWithin (n : Nat) (found : List Var) {t : Ty}
    (hn : (s.resolve t).height < n) :
    EndsAs s.Quiet (freeVars · found t) (t.freeVarsWithin n found) fun _ => True := by
  induction n generalizing found t with
  | zero => omega
  | succ n ih =>
      refine .deeper ?_
      simp only [freeVars, Ty.freeVarsWithin]
      refine endsAs_prune_bind hs (fun v => .pure trivial) fun c args ht => ?_
      exact EndsAs.foldlM (fun found a ha => ih found (Store.height_resolve_lt_of_mem ht hn ha)) _

theorem endsAs_freeVars (t : Ty) :
    EndsAs s.Quiet (freeVars · [] t) t.freeVars fun _ => True :=
  .bounded hs fun n hn => endsAs_freeVarsWithin hs n [] (hn t (List.mem_singleton.mpr rfl))

theorem endsAs_equalWithin (n : Nat) {t u : Ty} (hn : (s.resolve t).height < n) :
    EndsAs s.Quiet (equal · t u) (t.equalWithin n u) fun _ => True := by
  induction n generalizing t u with
  | zero => omega
  | succ n ih =>
      refine .deeper ?_
      simp only [equal, Ty.equalWithin]
      refine endsAs_prune_bind hs (fun v => ?_) fun c as ht => ?_
      · exact endsAs_prune_bind hs (fun w => .pure trivial) fun d bs _ => .pure trivial
      · refine endsAs_prune_bind hs (fun w => .pure trivial) fun d bs _ => ?_
        dsimp only
        split
        · refine EndsAs.allM fun p hp => ih (Store.height_resolve_lt_of_mem ht hn ?_)
          exact (List.of_mem_zip hp).1
        · exact .pure trivial

theorem endsAs_equal (t u : Ty) : EndsAs s.Quiet (equal · t u) (t.equal u) fun _ => True :=
  .bounded hs fun n hn => endsAs_equalWithin hs n (hn t (List.mem_cons_self ..))

theorem endsAs_displayWithin (n : Nat) (pos : Position) {t : Ty}
    (hn : (s.resolve t).height < n) :
    EndsAs s.Quiet (display · pos t) (t.displayWithin n pos) fun _ => True := by
  induction n generalizing pos t with
  | zero => omega
  | succ n ih =>
      refine .deeper ?_
      simp only [display, Ty.displayWithin]
      have hname : ∀ v : Var,
          EndsAs s.Quiet (fun _ => (liftM v.name : Walk String)) v.name fun _ => True :=
        fun v => .of_reads (Store.reads_name v) fun _ _ => .of_eq fun _ => rfl
      refine endsAs_prune_bind hs hname fun c args ht => ?_
      have hargs : ∀ a ∈ args, ∀ pos,
          EndsAs s.Quiet (display · pos a) (a.displayWithin n pos) fun _ => True :=
        fun a ha pos => ih pos (Store.height_resolve_lt_of_mem ht hn ha)
      have happlied := EndsAs.mapM fun a ha => hargs a ha .argument
      cases c with
      | tuple => exact (EndsAs.mapM fun a ha => hargs a ha .top).bind fun _ _ => .pure trivial
      | arrow =>
          rcases args with _ | ⟨domain, _ | ⟨codomain, _ | ⟨a, as⟩⟩⟩
          case cons.cons.nil =>
            refine (hargs domain (by simp) .arrowLeft).bind fun _ _ => ?_
            exact (hargs codomain (by simp) .top).bind fun _ _ => .pure trivial
          all_goals exact happlied.bind fun _ _ => .pure trivial
      | _ => exact happlied.bind fun _ _ => .pure trivial

theorem endsAs_display (t : Ty) : EndsAs s.Quiet (display · .top t) t.display fun _ => True :=
  .bounded hs fun n hn => endsAs_displayWithin hs n .top (hn t (List.mem_singleton.mpr rfl))

end readers

/-! ### Copies -/

theorem endsAs_copyWithin {s : Store} (hs : s.WellFormed) (fixed : List Var) (p : SupplyId)
    (n : Nat) {t : Ty} (hn : (s.resolve t).height < n) (m : Renaming) :
    EndsAs s.Alike (copy fixed p · t m) (t.copyWithin fixed p n m) fun _ => True := by
  induction n generalizing t m with
  | zero => omega
  | succ n ih =>
      have hprune := EndsAs.alike fun s' (hs' : s.Alike s') =>
        .of_reads (hs'.reads_prune hs t) fun _ h => hasResult_prune h.wellFormed.acyclic t
      refine .deeper ?_
      simp only [copy, Ty.copyWithin]
      refine hprune.lift_bind m fun r hr => ?_
      rcases hr with ⟨v, rfl, -⟩ | ⟨c, args, rfl, ht⟩
      · have hgeneric := EndsAs.alike fun s' (hs' : s.Alike s') =>
          endsAs_isGeneric hs'.wellFormed v fixed
        refine hgeneric.lift_bind m fun b _ => ?_
        cases b with
        | false => exact .pure trivial
        | true =>
            have hfresh : EndsAs s.Alike (fun _ => (liftM p.fresh : Walk Var)) p.fresh
                fun _ => True := fun s' hs' =>
              ⟨.of_eq fun _ => rfl, trivial, hs'.trans (Store.alike_fresh hs'.wellFormed p)⟩
            refine EndsAs.get_bind ?_
            cases m.lookup v with
            | some w => exact .pure trivial
            | none => exact hfresh.lift_bind m fun w _ => .pure trivial
      · refine (EndsAs.mapM_run (fun a ha m => ?_) m).bind_run fun us m' => .pure trivial
        exact ih (Store.height_resolve_lt_of_mem ht hn ha) m

theorem hasResult_copy {s : Store} (hs : s.WellFormed) (t : Ty) (fixed : List Var) (p : SupplyId)
    (m : Renaming) : HasResult (copy fixed p · t m s) (t.copyWith fixed p m s) :=
  (endsAs_copyWithin hs fixed p _
    (s.height_resolve_lt_budget (List.mem_singleton.mpr rfl)) m s (.refl hs)).1

end Unrolled

/-! ## Unification that ends -/

/-- What a computation ends with, and the session then. -/
def Infer.outcome (x : Infer α) (σ : Session) : Except TypeError α × Session :=
  match x σ with
  | .ok a σ' => (.ok a, σ')
  | .error e σ' => (.error e, σ')

namespace OpenInfer

/-- From the session the computation ends, with the outcome of `x`. -/
def EndsAs (w : Nat → OpenInfer α) (x : Infer α) (σ : Session) : Prop :=
  HasResult (w · σ) (x.outcome σ)

namespace EndsAs

variable {α β : Type} {σ : Session}

theorem bind {w : Nat → OpenInfer α} {x : Infer α} {g : Nat → α → OpenInfer β} {f : α → Infer β}
    (hw : EndsAs w x σ) (hg : ∀ a σ', x σ = .ok a σ' → EndsAs (g · a) (f a) σ') :
    EndsAs (fun n => w n >>= g n) (x >>= f) σ := by
  refine HasResult.bind (g := fun n r => ExceptT.bindCont (g n) r.1 r.2) hw ?_
  rw [Infer.outcome, Infer.outcome]
  cases hx : x σ with
  | ok a σ' =>
      rw [bind_of_ok hx]
      exact hg a σ' hx
  | error e σ' =>
      rw [bind_of_error hx]
      exact .of_eq fun _ => rfl

/-- What a reader answers is known in terms of any store that the present one was read from. -/
theorem reads {s : Store} {w : Nat → Walk α} {x : StoreM α} {g : Nat → α → OpenInfer β}
    {f : α → Infer β} {A : α → Prop} (hw : Walk.EndsAs s.Quiet w x A) (hσ : s.Quiet σ.store)
    (hg : ∀ a σ', A a → s.Quiet σ'.store → EndsAs (g · a) (f a) σ') :
    EndsAs (fun n => liftM (w n) >>= g n) (liftM x >>= f) σ := by
  obtain ⟨hend, ha, hq⟩ := hw σ.store hσ
  have hlift : EndsAs (fun n => (liftM (w n) : OpenInfer α)) (liftM x) σ := hend.map _
  refine hlift.bind fun a σ' hx => ?_
  obtain ⟨rfl, rfl⟩ := EStateM.Result.ok.inj hx
  exact hg _ _ ha hq

theorem deeper {w : Nat → OpenInfer α} {x : Infer α} (h : EndsAs (fun n => w (n + 1)) x σ) :
    EndsAs w x σ := HasResult.deeper h

theorem pure (a : α) : EndsAs (fun _ => pure a) (pure a) σ := .of_eq fun _ => rfl

theorem throw (e : TypeError) : EndsAs (fun _ => (throw e : OpenInfer α)) (throw e) σ :=
  .of_eq fun _ => rfl

theorem link (v : Var) (t : Ty) :
    EndsAs (fun _ => (liftM (v.link t) : OpenInfer Unit)) (liftM (v.link t)) σ :=
  .of_eq fun _ => rfl

end EndsAs

end OpenInfer

namespace Unrolled

open OpenInfer

theorem endsAs_announce {s : Store} (hs : s.WellFormed) {σ : Session} (hσ : s.Quiet σ.store)
    (l r : Ty) : EndsAs (announce · l r) (Overload.announce l r) σ := by
  simp only [announce, Overload.announce]
  have hget : EndsAs (fun _ => (getThe Session : OpenInfer Session)) get σ := .of_eq fun _ => rfl
  refine hget.bind fun _ σ' hx => ?_
  obtain ⟨rfl, rfl⟩ := EStateM.Result.ok.inj hx
  split
  · refine .reads (endsAs_display hs l) hσ fun left σ₁ _ h₁ => ?_
    refine .reads (endsAs_display hs r) h₁ fun right σ₂ _ _ => ?_
    exact .of_eq fun _ => rfl
  · exact .pure ()

theorem endsAs_bind {s : Store} (hs : s.WellFormed) {σ : Session} (hσ : s.Quiet σ.store)
    (v : Var) (t : Ty) : EndsAs (bind · v t) (v.bind t) σ := by
  cases t with
  | var w =>
      simp only [bind, Var.bind]
      split
      · exact .pure ()
      · exact .link v (.var w)
  | con c args =>
      simp only [bind, Var.bind]
      refine .reads (endsAs_occursIn hs v (.con c args)) hσ fun b σ₁ _ h₁ => ?_
      cases b with
      | false => exact .link v (.con c args)
      | true =>
          refine .reads (endsAs_display hs (.var v)) h₁ fun var σ₂ _ h₂ => ?_
          exact .reads (endsAs_display hs (.con c args)) h₂ fun ty σ₃ _ _ => .throw _

/-- Where single equations are settled, so are several in turn. -/
theorem endsAs_forM {H n : Nat}
    (hone : ∀ {l r σ}, σ.store.WellFormed → σ.store.HeightLe H → σ.store.Ready H n l r →
      EndsAs (unify · l r) (unifyWithin n l r) σ)
    (eqs : List (Ty × Ty)) {σ : Session} (hs : σ.store.WellFormed) (hH : σ.store.HeightLe H)
    (hready : ∀ p ∈ eqs, σ.store.Ready H n p.1 p.2) :
    EndsAs (fun n => eqs.forM fun (a, b) => unify n a b)
      (eqs.forM fun (a, b) => unifyWithin n a b) σ := by
  induction eqs generalizing σ with
  | nil => exact .pure ()
  | cons p eqs ih =>
      rw [List.forall_mem_cons] at hready
      refine EndsAs.bind (hone hs hH hready.1) fun _ σ' hx => ?_
      obtain ⟨hadds, hH'⟩ := Ends.of_ok (unifyWithin_settles n hs hH hready.1) hx
      refine ih hadds.wellFormed hH' fun q hq => ?_
      exact (hready.2 q hq).extend hadds.toExtends hadds.size_eq

/-- A representative is its own. -/
theorem endsAs_of_representative {r : Ty} {g : Nat → Ty → OpenInfer α} {x : Infer α} {σ : Session}
    (hr : σ.store.Representative r) (h : EndsAs (g · r) x σ) :
    EndsAs (fun n => liftM (prune n r) >>= g n) x σ := by
  have hprune : HasResult (fun n => (liftM (prune n r) : OpenInfer Ty) σ) (.ok r, σ) :=
    (hasResult_of_representative hr).map _
  exact hprune.bind
    (g := fun n (r : Except TypeError Ty × Session) => ExceptT.bindCont (g n) r.1 r.2) h

theorem endsAs_unifyWithin {H : Nat} (n : Nat) {l r : Ty} {σ : Session}
    (hs : σ.store.WellFormed) (hH : σ.store.HeightLe H) (hready : σ.store.Ready H n l r) :
    EndsAs (unify · l r) (unifyWithin n l r) σ := by
  induction n generalizing l r σ with
  | zero => exact absurd (hready.deep.pos hH) (Nat.lt_irrefl 0)
  | succ n ih =>
      refine .deeper ?_
      simp only [unify, unifyWithin]
      refine .reads (endsAs_prune hs l) (.refl hs) fun l' σ₁ hl h₁ => ?_
      refine .reads (endsAs_prune hs r) h₁ fun r' σ₂ hr h₂ => ?_
      refine EndsAs.bind (endsAs_announce hs h₂ l' r') fun _ σ₃ hx => ?_
      have h₃ := Ends.of_ok (announce_ends hs h₂ l' r' (E := fun _ _ => True)) hx
      cases l' with
      | var v => exact endsAs_bind hs h₃ v r'
      | con c as =>
          cases r' with
          | var w =>
              -- the sides change places: another call, on the representatives themselves
              have hrep : ∀ {t}, σ.store.Representative t → σ₃.store.Representative t :=
                h₃.toAlike.representative_iff.mpr
              refine .deeper ?_
              simp only [unify]
              refine endsAs_of_representative (hrep hr.representative) ?_
              refine endsAs_of_representative (hrep hl.representative) ?_
              refine EndsAs.bind (endsAs_announce hs h₃ _ _) fun _ σ₄ hx => ?_
              have h₄ := Ends.of_ok (announce_ends hs h₃ _ _ (E := fun _ _ => True)) hx
              exact endsAs_bind hs h₄ w _
          | con d bs =>
              dsimp only
              split
              · refine endsAs_forM ih _ h₃.wellFormed (h₃.height_le H hH) fun p hp => ?_
                exact (hready.args hH hl hr hp).extend h₃.toAlike.extends h₃.size_eq
              · refine .reads (endsAs_display hs _) h₃ fun expected σ₄ _ h₄ => ?_
                exact .reads (endsAs_display hs _) h₄ fun found σ₅ _ _ => .throw _

end Unrolled

/-- Over a store without cycles every recursion ends, and its result is the one that the bounded
recursion computes. -/
theorem recursion_terminates {σ : Session} (hs : σ.store.WellFormed) :
    (∀ t : Ty, HasResult (Unrolled.prune · t σ.store) (t.prune σ.store))
      ∧ (∀ (v : Var) (t : Ty),
          HasResult (Unrolled.occursIn v · t σ.store) (v.occursIn t σ.store))
      ∧ (∀ (t : Ty) (fixed : List Var) (p : SupplyId) (m : Renaming),
          HasResult (Unrolled.copy fixed p · t m σ.store) (t.copyWith fixed p m σ.store))
      ∧ (∀ t : Ty, HasResult (Unrolled.freeVars · [] t σ.store) (t.freeVars σ.store))
      ∧ (∀ t u : Ty, HasResult (Unrolled.equal · t u σ.store) (t.equal u σ.store))
      ∧ (∀ t : Ty, HasResult (Unrolled.display · .top t σ.store) (t.display σ.store))
      ∧ ∀ l r : Ty, σ.store.Covers l → σ.store.Covers r →
          HasResult (Unrolled.unify · l r σ) ((unify l r).outcome σ) := by
  have hrefl : σ.store.Quiet σ.store := .refl hs
  refine ⟨Unrolled.hasResult_prune hs.acyclic, fun v t => ?_, Unrolled.hasResult_copy hs,
    fun t => ?_, fun t u => ?_, fun t => ?_, fun l r hl hr => ?_⟩
  · exact (Unrolled.endsAs_occursIn hs v t _ hrefl).1
  · exact (Unrolled.endsAs_freeVars hs t _ hrefl).1
  · exact (Unrolled.endsAs_equal hs t u _ hrefl).1
  · exact (Unrolled.endsAs_display hs t _ hrefl).1
  · exact Unrolled.endsAs_unifyWithin _ hs (σ.store.heightLe_height.mono (Nat.le_max_left ..))
      (Store.ready_budget hl hr)

/-- `(List Int, #2)` and `(#1, #0 -> #1)`: the first arguments change places, and once `#1` is
linked the second ones have grown. -/
theorem recursion_terminates_sample :
    let l := Ty.tuple [.list (.nullary .int), .var ⟨2⟩]
    let r := Ty.tuple [.var ⟨1⟩, .fn (.var ⟨0⟩) (.var ⟨1⟩)]
    Store.sample.WellFormed ∧ Store.sample.Covers l ∧ Store.sample.Covers r
      ∧ ∃ σ, HasResult (Unrolled.unify · l r { store := Store.sample }) (.ok (), σ)
        ∧ σ.store.isBound ⟨1⟩ = true ∧ σ.store.isBound ⟨2⟩ = true := by
  intro l r
  have hl : Store.sample.Covers l := by decide +kernel
  have hr : Store.sample.Covers r := by decide +kernel
  obtain ⟨u, σ, h, hbound⟩ : Succeeds (unify l r { store := Store.sample }) fun _ σ =>
      σ.store.isBound ⟨1⟩ = true ∧ σ.store.isBound ⟨2⟩ = true := by decide +kernel
  obtain ⟨-, -, -, -, -, -, hunify⟩ :=
    recursion_terminates (σ := { store := Store.sample }) Store.sample_wellFormed
  have hends := hunify l r hl hr
  rw [Infer.outcome, h] at hends
  exact ⟨Store.sample_wellFormed, hl, hr, σ, hends, hbound⟩

end Overload
