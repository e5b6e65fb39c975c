import Overload.Proofs.Change
import Overload.Types.Text

/-!
# Reading terms

Reading a term shortens chains of links on the way, so each reader is a step of the store, and what
it answers has to be shown of a store that other readers have been at. `Reads` packs the two
together: from every store that `s` was read into, the computation answers as `P` says and only
reads on. It composes, so a walk is treated one call at a time, with all answers given in terms of
`s`.

The answers are those of the resolved terms: equality is equality of resolved terms
(`reads_equal`), the occurs check is membership in the resolved variables (`reads_occursIn`), and
the unbound variables of a term are the variables of its resolved form (`reads_freeVars`).
-/

namespace Overload

namespace Store

/-- After any amount of reading, `x` answers with a value in `P`, and has read as well. -/
def Reads (s : Store) (x : StoreM α) (P : α → Prop) : Prop :=
  ∀ s', s.Quiet s' → P (x s').1 ∧ s.Quiet (x s').2

namespace Reads

variable {α β : Type} {s : Store}

theorem here {x : StoreM α} {P : α → Prop} (h : s.Reads x P) (hs : s.WellFormed) :
    P (x s).1 ∧ s.Quiet (x s).2 :=
  h s (.refl hs)

theorem pure {P : α → Prop} {a : α} (h : P a) : s.Reads (pure a) P := fun _ hs' => ⟨h, hs'⟩

theorem bind {x : StoreM α} {f : α → StoreM β} {P : α → Prop} {Q : β → Prop} (hx : s.Reads x P)
    (hf : ∀ a, P a → s.Reads (f a) Q) : s.Reads (x >>= f) Q := by
  intro s' hs'
  obtain ⟨ha, hq⟩ := hx s' hs'
  exact hf _ ha _ hq

theorem mono {x : StoreM α} {P Q : α → Prop} (hx : s.Reads x P) (h : ∀ a, P a → Q a) :
    s.Reads x Q := fun s' hs' => ⟨h _ (hx s' hs').1, (hx s' hs').2⟩

theorem mapM {f : α → StoreM β} {P : β → Prop} {xs : List α} (h : ∀ x ∈ xs, s.Reads (f x) P) :
    s.Reads (xs.mapM f) fun _ => True := by
  induction xs with
  | nil => exact .pure trivial
  | cons x xs ih =>
      rw [List.mapM_cons]
      refine (h x (List.mem_cons_self ..)).bind fun _ _ => ?_
      refine (ih fun y hy => h y (List.mem_cons_of_mem _ hy)).bind fun _ _ => ?_
      exact .pure trivial

theorem foldlM {f : β → α → StoreM β} {g : β → α → β} {xs : List α}
    (h : ∀ b, ∀ x ∈ xs, s.Reads (f b x) (· = g b x)) (b : β) :
    s.Reads (xs.foldlM f b) (· = xs.foldl g b) := by
  induction xs generalizing b with
  | nil => exact .pure rfl
  | cons x xs ih =>
      rw [List.foldlM_cons, List.foldl_cons]
      refine (h b x (List.mem_cons_self ..)).bind fun b' hb' => ?_
      subst hb'
      exact ih (fun b y hy => h b y (List.mem_cons_of_mem _ hy)) _

theorem anyM {f : α → StoreM Bool} {g : α → Bool} {xs : List α}
    (h : ∀ x ∈ xs, s.Reads (f x) (· = g x)) : s.Reads (xs.anyM f) (· = xs.any g) := by
  induction xs with
  | nil => exact .pure rfl
  | cons x xs ih =>
      rw [List.anyM, List.any_cons]
      refine (h x (List.mem_cons_self ..)).bind fun b hb => ?_
      subst hb
      cases g x with
      | true => exact .pure rfl
      | false => exact ih fun y hy => h y (List.mem_cons_of_mem _ hy)

theorem allM {f : α → StoreM Bool} {g : α → Bool} {xs : List α}
    (h : ∀ x ∈ xs, s.Reads (f x) (· = g x)) : s.Reads (xs.allM f) (· = xs.all g) := by
  induction xs with
  | nil => exact .pure rfl
  | cons x xs ih =>
      rw [List.allM, List.all_cons]
      refine (h x (List.mem_cons_self ..)).bind fun b hb => ?_
      subst hb
      cases g x with
      | true => exact ih fun y hy => h y (List.mem_cons_of_mem _ hy)
      | false => exact .pure rfl

/-- The bound that a walk is given is always enough. -/
theorem bounded {ts : List Ty} {walk : Nat → StoreM α} {P : α → Prop} (hs : s.WellFormed)
    (h : ∀ n, (∀ t ∈ ts, (s.resolve t).height < n) → s.Reads (walk n) P) :
    s.Reads (Ty.bounded ts walk) P := by
  intro s' hs'
  refine h (s'.budget ts) (fun t ht => ?_) s' hs'
  rw [← hs'.toAlike.resolve_eq hs t]
  exact s'.height_resolve_lt_budget ht

end Reads

/-! ## Representatives -/

theorem Alike.representative_iff {s s' : Store} (h : s.Alike s') {t : Ty} :
    s'.Representative t ↔ s.Representative t := by
  cases t with
  | var v => exact h.bound_iff v
  | con => exact .rfl

/-- `r` stands for `t` at the end of its chain of links. -/
structure Represents (s : Store) (t r : Ty) : Prop where
  representative : s.Representative r
  resolve_eq : s.resolve r = s.resolve t
  covers : s.Covers t → s.Covers r
  height_le : ∀ n, s.HeightLe n → t.height ≤ n → r.height ≤ n

theorem Representative.represents_self {s : Store} {t : Ty} (h : s.Representative t) :
    s.Represents t t :=
  ⟨h, rfl, fun ht => ht, fun _ _ ht => ht⟩

/-- What stands for the link of a variable stands for the variable. -/
theorem Represents.of_link {s : Store} (hs : s.WellFormed) {v : Var} {t r : Ty}
    (h : s.Represents t r) (hl : s.link? v = some t) : s.Represents (.var v) r where
  representative := h.representative
  resolve_eq := h.resolve_eq.trans (resolve_of_link hs.acyclic hl).symm
  covers _ := h.covers (hs.closed hl)
  height_le n hn _ := h.height_le n hn (hn v t hl)

/-- The first constructor of the resolved term is that of the representative. -/
theorem Represents.cases {s : Store} {t r : Ty} (h : s.Represents t r) :
    (∃ v, r = .var v ∧ s.link? v = none ∧ s.resolve t = .var v)
      ∨ ∃ c args, r = .con c args ∧ s.resolve t = .con c (args.map s.resolve) := by
  rw [← h.resolve_eq]
  cases r with
  | var v => exact .inl ⟨v, rfl, h.representative, resolve_of_unbound h.representative⟩
  | con c args => exact .inr ⟨c, args, rfl, resolve_con s c args⟩

/-- The induction is on the number of links left; the rank of the variable bounds them. -/
theorem prune_spec {s : Store} (hs : s.WellFormed) (n : Nat) {t : Ty}
    (hn : ∀ v, t = .var v → s.rank v ≤ n) :
    s.EndsAt t (s.prune n t).1 ∧ s.Represents t (s.prune n t).1 ∧ s.Quiet (s.prune n t).2 := by
  induction n generalizing t with
  | zero =>
      cases t with
      | con c args => exact ⟨.here trivial, Representative.represents_self trivial, .refl hs⟩
      | var v =>
          have hv : s.link? v = none := by
            by_contra hl
            obtain ⟨t, hl⟩ := Option.ne_none_iff_exists'.mp hl
            have hpos := rank_pos hl
            have hzero := hn v rfl
            omega
          exact ⟨.here hv, Representative.represents_self hv, .refl hs⟩
  | succ n ih =>
      cases t with
      | con c args => exact ⟨.here trivial, Representative.represents_self trivial, .refl hs⟩
      | var v =>
          rw [prune]
          cases hl : s.link? v with
          | none => exact ⟨.here hl, Representative.represents_self hl, .refl hs⟩
          | some t =>
              have hrank : ∀ w, t = .var w → s.rank w ≤ n := by
                rintro w rfl
                have hlt := rank_lt hs.acyclic ⟨_, hl, List.mem_singleton.mpr rfl⟩
                have hle := hn v rfl
                omega
              obtain ⟨hend, hr, hq⟩ := ih hrank
              have hendv := EndsAt.link hl hend
              have hrv := hr.of_link hs hl
              have hlink : (s.prune n t).2.Alike ((s.prune n t).2.setLink v (s.prune n t).1) := by
                refine alike_relink hq.wellFormed ?_ ?_ ?_
                · rw [Ne, hq.bound_iff, hl]
                  exact Option.some_ne_none t
                · exact hq.relinks.endsAt hendv
                    (hq.toAlike.representative_iff.mpr hr.representative)
                · exact (hr.covers (hs.closed hl)).mono hq.size_le
              refine ⟨hendv, hrv, hq.toAlike.trans hlink, ?_, fun m hm => ?_⟩
              · rw [size_setLink, hq.size_eq]
              · exact (hq.height_le m hm).setLink (hrv.height_le m hm (Nat.zero_le m)) v

theorem reads_prune {s : Store} (hs : s.WellFormed) (t : Ty) :
    s.Reads t.prune (s.Represents t) := by
  intro s' hs'
  obtain ⟨-, hr, hq⟩ := prune_spec hs'.wellFormed s'.size (t := t) fun v _ => s'.rank_le_size v
  refine ⟨⟨hs'.toAlike.representative_iff.mp hr.representative, ?_, fun ht => ?_, fun n hn => ?_⟩,
    hs'.trans hq⟩
  · rw [← hs'.toAlike.resolve_eq hs, ← hs'.toAlike.resolve_eq hs t]
    exact hr.resolve_eq
  · exact (hr.covers (ht.mono hs'.size_le)).mono (Nat.le_of_eq hs'.size_eq)
  · exact hr.height_le n (hs'.height_le n hn)

/-- A walk that starts at the representative goes by the first constructor of the resolved
term. -/
theorem Reads.prune_bind {s : Store} (hs : s.WellFormed) {t : Ty} {f : Ty → StoreM α}
    {P : α → Prop}
    (hvar : ∀ v, s.link? v = none → s.resolve t = .var v → s.Reads (f (.var v)) P)
    (hcon : ∀ c args, s.resolve t = .con c (args.map s.resolve) → s.Reads (f (.con c args)) P) :
    s.Reads (t.prune >>= f) P := by
  refine (reads_prune hs t).bind fun r hr => ?_
  rcases hr.cases with ⟨v, rfl, hv, ht⟩ | ⟨c, args, rfl, ht⟩
  · exact hvar v hv ht
  · exact hcon c args ht

/-! ## The occurs check -/

/-- The depth left is enough for the arguments. -/
theorem height_resolve_lt_of_mem {s : Store} {t a : Ty} {c : TypeCon} {args : List Ty} {n : Nat}
    (ht : s.resolve t = .con c (args.map s.resolve)) (hn : (s.resolve t).height < n + 1)
    (ha : a ∈ args) : (s.resolve a).height < n := by
  have hlt := Ty.height_lt_of_mem (c := c) (List.mem_map_of_mem (f := s.resolve) ha)
  rw [ht] at hn
  omega

theorem reads_occursWithin {s : Store} (hs : s.WellFormed) (v : Var) (n : Nat) {t : Ty}
    (hn : (s.resolve t).height < n) :
    s.Reads (v.occursWithin n t) (· = decide (v ∈ (s.resolve t).vars)) := by
  induction n generalizing t with
  | zero => omega
  | succ n ih =>
      rw [Var.occursWithin]
      refine Reads.prune_bind hs (fun w _ ht => .pure ?_) fun c args ht => ?_
      · rw [ht]
        simp [eq_comm]
      · refine (Reads.anyM fun a ha => ih (height_resolve_lt_of_mem ht hn ha)).mono fun b hb => ?_
        rw [hb, ht, Bool.eq_iff_iff]
        simp

theorem reads_occursIn {s : Store} (hs : s.WellFormed) (v : Var) (t : Ty) :
    s.Reads (v.occursIn t) (· = decide (v ∈ (s.resolve t).vars)) :=
  .bounded hs fun n hn => reads_occursWithin hs v n (hn t (List.mem_singleton.mpr rfl))

/-- The variables of what the given ones stand for. -/
def varsOf (s : Store) (vs : List Var) : List Var :=
  vs.flatMap fun v => (s.resolve (.var v)).vars

theorem reads_isGeneric {s : Store} (hs : s.WellFormed) (v : Var) (fixed : List Var) :
    s.Reads (v.isGeneric fixed) (· = decide (v ∉ s.varsOf fixed)) := by
  refine (Reads.anyM fun t _ => reads_occursIn hs v t).bind fun b hb => .pure ?_
  rw [hb, Bool.eq_iff_iff]
  simp [varsOf]

/-! ## Equality -/

theorem all_zip_eq {s : Store} {as bs : List Ty} (h : as.length = bs.length) :
    ((as.zip bs).all fun p => decide (s.resolve p.1 = s.resolve p.2))
      = decide (as.map s.resolve = bs.map s.resolve) := by
  induction as generalizing bs with
  | nil =>
      cases bs with
      | nil => rfl
      | cons b bs => cases h
  | cons a as ih =>
      cases bs with
      | nil => cases h
      | cons b bs =>
          rw [List.zip_cons_cons, List.all_cons, ih (Nat.succ.inj h), Bool.eq_iff_iff]
          simp

theorem reads_equalWithin {s : Store} (hs : s.WellFormed) (n : Nat) {t u : Ty}
    (hn : (s.resolve t).height < n) :
    s.Reads (Ty.equalWithin n t u) (· = decide (s.resolve t = s.resolve u)) := by
  induction n generalizing t u with
  | zero => omega
  | succ n ih =>
      rw [Ty.equalWithin]
      refine Reads.prune_bind hs (fun v _ ht => ?_) fun c as ht => ?_
      · refine Reads.prune_bind hs (fun w _ hu => .pure ?_) fun d bs hu => .pure ?_
        · rw [ht, hu]
          simp
        · rw [ht, hu]
          rfl
      · refine Reads.prune_bind hs (fun w _ hu => .pure ?_) fun d bs hu => ?_
        · rw [ht, hu]
          rfl
        · dsimp only
          split
          · next h =>
              refine (Reads.allM fun p hp => ih (height_resolve_lt_of_mem ht hn ?_)).mono
                fun b hb => ?_
              · exact (List.of_mem_zip hp).1
              · rw [hb, all_zip_eq h.2, ht, hu, h.1]
                simp
          · next h =>
              refine .pure ?_
              rw [ht, hu, eq_comm, decide_eq_false_iff_not]
              intro heq
              obtain ⟨hc, hargs⟩ := Ty.con.inj heq
              exact h ⟨hc, by simpa using congrArg List.length hargs⟩

theorem reads_equal {s : Store} (hs : s.WellFormed) (t u : Ty) :
    s.Reads (t.equal u) (· = decide (s.resolve t = s.resolve u)) :=
  .bounded hs fun n hn => reads_equalWithin hs n (hn t (List.mem_cons_self ..))

/-! ## Unbound variables -/

/-- The variables of a list that are not in `found`, added to it in order of occurrence. -/
def addNew (found vs : List Var) : List Var :=
  vs.foldl (fun found v => if v ∈ found then found else found ++ [v]) found

theorem mem_addNew {found vs : List Var} {v : Var} :
    v ∈ addNew found vs ↔ v ∈ found ∨ v ∈ vs := by
  induction vs generalizing found with
  | nil => simp [addNew]
  | cons w vs ih =>
      rw [addNew, List.foldl_cons, ← addNew, ih, List.mem_cons]
      split
      · next hw =>
          constructor
          · rintro (h | h)
            · exact .inl h
            · exact .inr (.inr h)
          · rintro (h | rfl | h)
            · exact .inl h
            · exact .inl hw
            · exact .inr h
      · rw [List.mem_append, List.mem_singleton, or_assoc]

theorem reads_freeVarsWithin {s : Store} (hs : s.WellFormed) (n : Nat) (found : List Var) {t : Ty}
    (hn : (s.resolve t).height < n) :
    s.Reads (Ty.freeVarsWithin n found t) (· = addNew found (s.resolve t).vars) := by
  induction n generalizing found t with
  | zero => omega
  | succ n ih =>
      rw [Ty.freeVarsWithin]
      refine Reads.prune_bind hs (fun v _ ht => .pure ?_) fun c args ht => ?_
      · rw [ht]
        rfl
      · have hargs := Reads.foldlM (fun found a ha => ih found (height_resolve_lt_of_mem ht hn ha))
        refine (hargs _).mono fun found' h => ?_
        rw [h, ht, Ty.vars_con, List.flatMap_map, addNew, List.foldl_flatMap]
        rfl

theorem reads_freeVars {s : Store} (hs : s.WellFormed) (t : Ty) :
    s.Reads t.freeVars (· = addNew [] (s.resolve t).vars) :=
  .bounded hs fun n hn => reads_freeVarsWithin hs n [] (hn t (List.mem_singleton.mpr rfl))

/-! ## Texts -/

theorem reads_name {s : Store} (v : Var) : s.Reads v.name fun _ => True :=
  fun _ hs' => ⟨trivial, hs'.trans (quiet_name hs'.wellFormed v)⟩

theorem reads_displayWithin {s : Store} (hs : s.WellFormed) (n : Nat) (pos : Position) (t : Ty) :
    s.Reads (Ty.displayWithin n pos t) fun _ => True := by
  induction n generalizing pos t with
  | zero => exact .pure trivial
  | succ n ih =>
      rw [Ty.displayWithin]
      refine (reads_prune hs t).bind fun r _ => ?_
      split
      · exact reads_name _
      · refine (ih _ _).bind fun _ _ => (ih _ _).bind fun _ _ => ?_
        exact .pure trivial
      · exact (Reads.mapM fun a _ => ih .top a).bind fun _ _ => .pure trivial
      · exact (Reads.mapM fun a _ => ih .argument a).bind fun _ _ => .pure trivial

theorem reads_display {s : Store} (hs : s.WellFormed) (t : Ty) :
    s.Reads t.display fun _ => True :=
  .bounded hs fun n _ => reads_displayWithin hs n .top t

end Store

end Overload
