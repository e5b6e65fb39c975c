import Mathlib.Data.List.Forall2
import Overload.Proofs.Constructors
import Overload.Proofs.Independence
import Overload.Proofs.Instantiation

/-!
# What questions about terms decide

Equality, the unbound variables of a term, the occurs check and the test for variables that a copy
may rename are four walks of their own, each of which rewrites links under way. All of them answer
for one tree, the resolved term: `queries_exact` says what each decides about it.

A tree has constructors at its nodes, and these count by their ids (`Ty.SameTree`). That two
constructors with one id are the same is not a matter of the walk: ids are handed out one after the
other, each with the name it is declared under (`TypeCon.Declared.injOn_id`).
-/

namespace Overload

/-! ## Ids of constructors -/

namespace TypeCon

/-- The constructors there are in a session: the built-in ones, and those declared on the way to
it. In between anything may have happened but that constructors were taken back. -/
inductive Declared : Session → List TypeCon → Prop
  | start (σ : Session) : Declared σ builtins
  | declare {σ : Session} {cs : List TypeCon} (name : String) : Declared σ cs →
      Declared (Session.declareCon name σ).2 ((Session.declareCon name σ).1 :: cs)
  | later {σ σ' : Session} {cs : List TypeCon} : Declared σ cs → σ.declared ≤ σ'.declared →
      Declared σ' cs

namespace Declared

variable {σ : Session} {cs : List TypeCon}

theorem id_lt (h : Declared σ cs) : ∀ c ∈ cs, c.id < 64 + σ.declared := by
  induction h with
  | start σ =>
      have hbuiltins : ∀ c ∈ builtins, c.id < 64 := by decide
      exact fun c hc => Nat.lt_add_right _ (hbuiltins c hc)
  | @declare σ cs name _ ih =>
      rw [List.forall_mem_cons]
      exact ⟨Nat.lt_succ_self _, fun c hc => Nat.lt_succ_of_lt (ih c hc)⟩
  | later _ hle ih => exact fun c hc => Nat.lt_of_lt_of_le (ih c hc) (Nat.add_le_add_left hle 64)

/-- An id belongs to one constructor. -/
theorem injOn_id (h : Declared σ cs) : Set.InjOn TypeCon.id { c | c ∈ cs } := by
  induction h with
  | start σ =>
      have hbuiltins : ∀ c ∈ builtins, ∀ d ∈ builtins, c.id = d.id → c = d := by decide
      exact fun c hc d hd => hbuiltins c hc d hd
  | later _ _ ih => exact ih
  | @declare σ cs name hcs ih =>
      have hnew : ∀ c ∈ cs, c.id ≠ (Session.declareCon name σ).1.id :=
        fun c hc => Nat.ne_of_lt (hcs.id_lt c hc)
      intro c hc d hd hid
      rcases List.mem_cons.mp hc with rfl | hc
      · rcases List.mem_cons.mp hd with rfl | hd
        · rfl
        · exact absurd hid.symm (hnew d hd)
      · rcases List.mem_cons.mp hd with rfl | hd
        · exact absurd hid (hnew c hc)
        · exact ih hc hd hid

end Declared

end TypeCon

/-! ## Trees -/

/-- The same variables and, whatever the constructors are called, the same ids with the same number
of arguments at the same places. -/
inductive Ty.SameTree : Ty → Ty → Prop
  | var (v : Var) : SameTree (.var v) (.var v)
  | con {c d : TypeCon} {as bs : List Ty} : c.id = d.id → as.length = bs.length →
      (∀ (i : Nat) (a b : Ty), as[i]? = some a → bs[i]? = some b → SameTree a b) →
      SameTree (.con c as) (.con d bs)

namespace Ty.SameTree

variable {t u : Ty}

theorem refl (t : Ty) : t.SameTree t := by
  induction t with
  | var v => exact .var v
  | con c args ih =>
      refine .con rfl rfl fun i a b ha hb => ?_
      obtain rfl := Option.some.inj (ha.symm.trans hb)
      exact ih a (List.mem_of_getElem? ha)

theorem eq {C : Set TypeCon} (hinj : Set.InjOn TypeCon.id C) (h : t.SameTree u) (ht : t.Over C)
    (hu : u.Over C) : t = u := by
  induction h with
  | var v => rfl
  | con hid hlen _ ih =>
      obtain ⟨hc, has⟩ := Ty.over_con.mp ht
      obtain ⟨hd, hbs⟩ := Ty.over_con.mp hu
      rw [hinj hc hd hid, List.ext_getElem hlen fun i hi hi' => ?_]
      exact ih i _ _ (List.getElem?_eq_getElem hi) (List.getElem?_eq_getElem hi')
        (has _ (List.getElem_mem hi)) (hbs _ (List.getElem_mem hi'))

end Ty.SameTree

/-! ## First occurrences -/

/-- The second list has the members of the first one, each once, in the order in which they come up
there. -/
structure ListsOnce (vs us : List Var) : Prop where
  mem_iff : ∀ v, v ∈ us ↔ v ∈ vs
  nodup : us.Nodup
  ordered : us.Pairwise fun v w => vs.idxOf v < vs.idxOf w

namespace Store

/-- From the back: what is added last comes up last. -/
theorem pairwise_addNew (vs : List Var) :
    (addNew [] vs).Pairwise fun v w => vs.idxOf v < vs.idxOf w := by
  induction vs using List.reverseRecOn with
  | nil => exact .nil
  | append_singleton vs v ih =>
      have hmem : ∀ {u}, u ∈ addNew [] vs ↔ u ∈ vs := by simp [mem_addNew]
      have hold : (addNew [] vs).Pairwise fun u w =>
          (vs ++ [v]).idxOf u < (vs ++ [v]).idxOf w := by
        refine ih.imp_of_mem fun hu hw hlt => ?_
        rwa [List.idxOf_append_of_mem (hmem.mp hu), List.idxOf_append_of_mem (hmem.mp hw)]
      rw [addNew_concat]
      split
      · exact hold
      · next hv =>
          rw [hmem] at hv
          refine List.pairwise_append.mpr ⟨hold, List.pairwise_singleton _ v, fun u hu w hw => ?_⟩
          obtain rfl := List.mem_singleton.mp hw
          rw [List.idxOf_append_of_mem (hmem.mp hu), List.idxOf_append_of_notMem hv]
          exact Nat.lt_add_right _ (List.idxOf_lt_length_of_mem (hmem.mp hu))

theorem listsOnce_addNew (vs : List Var) : ListsOnce vs (addNew [] vs) where
  mem_iff v := by simp [mem_addNew]
  nodup := by
    refine (pairwise_addNew vs).imp ?_
    rintro v w hlt rfl
    exact Nat.lt_irrefl _ hlt
  ordered := pairwise_addNew vs

/-! ## Answers -/

variable {s : Store} (hs : s.WellFormed)
include hs

theorem equal_iff (t u : Ty) : (t.equal u s).1 = true ↔ s.resolve t = s.resolve u := by
  rw [((reads_equal hs t u).here hs).1, decide_eq_true_eq]

theorem equal_iff_sameTree {C : Set TypeCon} (hinj : Set.InjOn TypeCon.id C) (hC : s.Over C)
    {t u : Ty} (ht : t.Over C) (hu : u.Over C) :
    (t.equal u s).1 = true ↔ (s.resolve t).SameTree (s.resolve u) := by
  rw [equal_iff hs]
  constructor
  · intro heq
    rw [heq]
    exact .refl _
  · intro h
    exact h.eq hinj (hC.resolve ht) (hC.resolve hu)

theorem equal_equivalence : Equivalence fun t u : Ty => (t.equal u s).1 = true := by
  simp only [equal_iff hs]
  exact ⟨fun _ => rfl, Eq.symm, Eq.trans⟩

theorem equal_con_iff (c d : TypeCon) (as bs : List Ty) :
    ((Ty.con c as).equal (.con d bs) s).1 = true
      ↔ c = d ∧ List.Forall₂ (fun a b => (a.equal b s).1 = true) as bs := by
  simp only [equal_iff hs]
  rw [resolve_con, resolve_con, Ty.con.injEq, ← List.forall₂_eq_eq_eq, List.forall₂_map_left_iff,
    List.forall₂_map_right_iff]

theorem listsOnce_freeVars (t : Ty) : ListsOnce (s.resolve t).vars (t.freeVars s).1 := by
  rw [((reads_freeVars hs t).here hs).1]
  exact listsOnce_addNew _

theorem occursIn_iff (v : Var) (t : Ty) :
    (v.occursIn t s).1 = true ↔ v ∈ (t.freeVars s).1 := by
  rw [((reads_occursIn hs v t).here hs).1, decide_eq_true_eq, mem_freeVars hs]

theorem occursIn_of_isBound {v : Var} (hv : s.isBound v = true) (t : Ty) :
    (v.occursIn t s).1 = false := by
  rw [Bool.eq_false_iff, Ne, occursIn_iff hs, mem_freeVars hs]
  intro hmem
  rw [isBound, unlinked_resolve hs.acyclic t v hmem] at hv
  cases hv

theorem isGeneric_eq_false_iff (v : Var) (fixed : List Var) :
    (v.isGeneric fixed s).1 = false ↔ ∃ f ∈ fixed, v ∈ ((Ty.var f).freeVars s).1 := by
  rw [((reads_isGeneric hs v fixed).here hs).1, decide_eq_false_iff_not, not_not, varsOf,
    List.mem_flatMap]
  simp only [mem_freeVars hs]

end Store

/-- Equality holds between terms that resolve to one tree, where constructors count by their ids;
it is an equivalence, and goes by the arguments of applied constructors. The unbound variables are
those of the resolved term, in order of first occurrence. A variable occurs in a term if it is one
of them, so a bound one never does, and it is generic unless it is one of those of a fixed
variable. -/
theorem queries_exact {s : Store} (hs : s.WellFormed) :
    (∀ t u : Ty, (t.equal u s).1 = true ↔ s.resolve t = s.resolve u)
      ∧ (∀ (σ : Session) (cs : List TypeCon), TypeCon.Declared σ cs → s.Over { c | c ∈ cs } →
          ∀ t u : Ty, t.Over { c | c ∈ cs } → u.Over { c | c ∈ cs } →
            ((t.equal u s).1 = true ↔ (s.resolve t).SameTree (s.resolve u)))
      ∧ Equivalence (fun t u : Ty => (t.equal u s).1 = true)
      ∧ (∀ (c d : TypeCon) (as bs : List Ty), ((Ty.con c as).equal (.con d bs) s).1 = true
          ↔ c = d ∧ List.Forall₂ (fun a b => (a.equal b s).1 = true) as bs)
      ∧ (∀ t : Ty, ListsOnce (s.resolve t).vars (t.freeVars s).1)
      ∧ (∀ (v : Var) (t : Ty), (v.occursIn t s).1 = true ↔ v ∈ (t.freeVars s).1)
      ∧ (∀ v : Var, s.isBound v = true → ∀ t : Ty, (v.occursIn t s).1 = false)
      ∧ ∀ (v : Var) (fixed : List Var),
          (v.isGeneric fixed s).1 = false ↔ ∃ f ∈ fixed, v ∈ ((Ty.var f).freeVars s).1 := by
  refine ⟨Store.equal_iff hs, ?_, Store.equal_equivalence hs, Store.equal_con_iff hs,
    Store.listsOnce_freeVars hs, Store.occursIn_iff hs, fun v => Store.occursIn_of_isBound hs,
    Store.isGeneric_eq_false_iff hs⟩
  intro σ cs hcs hover t u ht hu
  exact Store.equal_iff_sameTree hs hcs.injOn_id hover ht hu

/-- `Maybe` has been declared twice. `#2` stands for `Maybe #0` with the first of the two, and `#0`
for `List #1`. -/
theorem queries_exact_declared :
    let first := TypeCon.declared 0 "Maybe"
    let second := TypeCon.declared 1 "Maybe"
    let s := Store.sample.setLink ⟨2⟩ (.con first [.var ⟨0⟩])
    let t := Ty.fn (.var ⟨2⟩) (.var ⟨1⟩)
    let like (c : TypeCon) := Ty.fn (.con c [.list (.var ⟨1⟩)]) (.var ⟨1⟩)
    s.WellFormed ∧ TypeCon.Declared { declared := 2 } (second :: first :: TypeCon.builtins)
      ∧ (t.equal (like first) s).1 = true ∧ (t.equal (like second) s).1 = false
      ∧ (s.resolve t).SameTree (s.resolve (like first))
      ∧ ¬(s.resolve t).SameTree (s.resolve (like second))
      ∧ (t.freeVars s).1 = [⟨1⟩] ∧ (Var.occursIn ⟨1⟩ t s).1 = true
      ∧ s.isBound ⟨2⟩ = true ∧ (Var.occursIn ⟨2⟩ t s).1 = false
      ∧ (Var.isGeneric ⟨1⟩ [⟨2⟩] s).1 = false := by
  intro first second s t like
  have hs : s.WellFormed := (Store.extends_bind Store.sample_wellFormed rfl (by decide)
    (by decide +kernel) (by decide +kernel)).wellFormed
  have hdeclared : TypeCon.Declared { declared := 2 } (second :: first :: TypeCon.builtins) :=
    .declare "Maybe" (.declare "Maybe" (.start {}))
  obtain ⟨-, htree, -, -, -, hoccurs, hbound, hgeneric⟩ := queries_exact hs
  have htree := fun c hc =>
    htree _ _ hdeclared (by decide +kernel) t (like c) (by decide +kernel) hc
  have hequal : (t.equal (like first) s).1 = true := by decide +kernel
  have hdiffer : (t.equal (like second) s).1 = false := by decide +kernel
  have hvars : (t.freeVars s).1 = [⟨1⟩] := by decide +kernel
  refine ⟨hs, hdeclared, hequal, hdiffer, ?_, fun h => ?_, hvars, ?_, rfl, hbound ⟨2⟩ rfl t, ?_⟩
  · exact (htree first (by decide +kernel)).mp hequal
  · rw [(htree second (by decide +kernel)).mpr h] at hdiffer
    cases hdiffer
  · rw [hoccurs, hvars]
    exact List.mem_singleton.mpr rfl
  · exact (hgeneric ⟨1⟩ [⟨2⟩]).mpr ⟨⟨2⟩, List.mem_singleton.mpr rfl, by decide +kernel⟩

end Overload
