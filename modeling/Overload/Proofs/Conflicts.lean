import Mathlib.Data.Set.Function
import Overload.Proofs.Constructors
import Overload.Proofs.Display

/-!
# Where unification fails

A failed unification reports two sub-terms of the terms it was given. As the store is left, they
stand at one position of both terms, all that is left of this position is the same on both sides,
and the two can never be made equal: they are different constructors, or a variable and a term that
contains it (`Store.Clash`). The left one is from the left term, and each is reported as it is
displayed.

The place is found along the recursion. Where two representatives clash, nothing is linked any more,
so their resolved forms at the end are the ones that were compared. Where an argument fails, the
arguments before it have been made equal and stay equal, and the position in the arguments becomes
one in the whole terms (`Ty.PartsFrom.arg`).
-/

namespace Overload

/-- Two lists side by side whose members have the same image up to some place. -/
theorem exists_map_eq_of_zip {α β : Type} {f : α → β} {as bs : List α} {pre post : List (α × α)}
    {a b : α} (hlen : as.length = bs.length) (hzip : as.zip bs = pre ++ (a, b) :: post)
    (hpre : ∀ p ∈ pre, f p.1 = f p.2) :
    ∃ us xs ys, as.map f = us ++ f a :: xs ∧ bs.map f = us ++ f b :: ys := by
  have has := List.map_fst_zip (Nat.le_of_eq hlen)
  have hbs := List.map_snd_zip (Nat.le_of_eq hlen.symm)
  rw [hzip] at has hbs
  refine ⟨pre.map (f ·.1), post.map (f ·.1), post.map (f ·.2), ?_, ?_⟩
  · simp [← has, Function.comp_def]
  · rw [List.map_congr_left hpre]
    simp [← hbs, Function.comp_def]

/-! ## Positions -/

/-- The first path turns off to the left of the second. -/
inductive LeftOf : List Nat → List Nat → Prop
  | turn {i j : Nat} (h : i < j) (q p : List Nat) : LeftOf (i :: q) (j :: p)
  | along (i : Nat) {q p : List Nat} (h : LeftOf q p) : LeftOf (i :: q) (i :: p)

namespace Ty

/-- The sub-term that a path of argument numbers leads to. -/
def at? : Ty → List Nat → Option Ty
  | t, [] => some t
  | .var _, _ :: _ => none
  | .con _ args, i :: p => args[i]?.bind (·.at? p)

@[simp] theorem at?_nil (t : Ty) : t.at? [] = some t := by rw [at?]

@[simp] theorem at?_con (c : TypeCon) (args : List Ty) (i : Nat) (p : List Nat) :
    (Ty.con c args).at? (i :: p) = args[i]?.bind (·.at? p) := by rw [at?]

/-- The terms have `a` and `b` at the position `p`, and the same at every position left of it. -/
structure PartsFrom (t u : Ty) (p : List Nat) (a b : Ty) : Prop where
  left : t.at? p = some a
  right : u.at? p = some b
  before : ∀ q, LeftOf q p → t.at? q = u.at? q

theorem partsFrom_top (t u : Ty) : t.PartsFrom u [] t u :=
  ⟨at?_nil t, at?_nil u, fun _ hq => nomatch hq⟩

theorem PartsFrom.arg {x y a b : Ty} {p : List Nat} (h : x.PartsFrom y p a b) (c d : TypeCon)
    (us xs ys : List Ty) :
    (Ty.con c (us ++ x :: xs)).PartsFrom (.con d (us ++ y :: ys)) (us.length :: p) a b where
  left := by simpa using h.left
  right := by simpa using h.right
  before q hq := by
    cases hq with
    | turn hlt q => simp [List.getElem?_append_left hlt]
    | along _ hq => simpa using h.before _ hq

theorem Over.at? {C : Set TypeCon} {t a : Ty} (h : t.Over C) {p : List Nat}
    (ha : t.at? p = some a) : a.Over C := by
  induction p generalizing t with
  | nil =>
      obtain rfl := Option.some.inj ((at?_nil t).symm.trans ha)
      exact h
  | cons i p ih =>
      cases t with
      | var v => cases ha
      | con c args =>
          rw [at?_con] at ha
          obtain ⟨b, hb, ha⟩ := Option.bind_eq_some_iff.mp ha
          exact ih ((over_con.mp h).2 b (List.mem_of_getElem? hb)) ha

end Ty

namespace Store

/-- Why `a` and `b` are not the same, as the error puts it: the texts are their displays. -/
inductive Clash (s : Store) : TypeError → Ty → Ty → Prop
  | mismatch {c d : TypeCon} {as bs : List Ty} : c ≠ d ∨ as.length ≠ bs.length →
      Clash s (.mismatch ((Ty.con c as).display s).1 ((Ty.con d bs).display s).1)
        (.con c as) (.con d bs)
  | left {v : Var} {c : TypeCon} {args : List Ty} : s.link? v = none → v ∈ (Ty.con c args).vars →
      Clash s (.recursive ((Ty.var v).display s).1 ((Ty.con c args).display s).1)
        (.var v) (.con c args)
  | right {v : Var} {c : TypeCon} {args : List Ty} : s.link? v = none → v ∈ (Ty.con c args).vars →
      Clash s (.recursive ((Ty.var v).display s).1 ((Ty.con c args).display s).1)
        (.con c args) (.var v)

/-- The first place, from the left, where the terms are not the same is a clash. -/
def Disagrees (s : Store) (e : TypeError) (l r : Ty) : Prop :=
  ∃ p a b, (s.resolve l).PartsFrom (s.resolve r) p a b ∧ s.Clash e a b

/-- From `s`, the equations have been settled up to one whose sides clash. -/
structure Fails (s : Store) (eqs : List (Ty × Ty)) (e : TypeError) (s' : Store) : Prop where
  extend : s.Extends s'
  reuses : s.Reuses eqs s'
  conflict : ∃ pre l r post, eqs = pre ++ (l, r) :: post
    ∧ (∀ p ∈ pre, s'.resolve p.1 = s'.resolve p.2) ∧ s'.Disagrees e l r

theorem Fails.one {s s' : Store} {l r : Ty} {e : TypeError} (hext : s.Extends s')
    (hreuses : s.Reuses [(l, r)] s') (h : s'.Disagrees e l r) : s.Fails [(l, r)] e s' :=
  ⟨hext, hreuses, [], l, r, [], rfl, by simp, h⟩

theorem Fails.disagrees {s s' : Store} {l r : Ty} {e : TypeError} (h : s.Fails [(l, r)] e s') :
    s'.Disagrees e l r := by
  obtain ⟨pre, l', r', post, heq, -, hdis⟩ := h.conflict
  cases pre with
  | nil =>
      cases heq
      exact hdis
  | cons p pre => simp at heq

/-- The terms clash themselves, before anything is linked. -/
theorem Quiet.fails {s s' : Store} (h : s.Quiet s') (hs : s.WellFormed) {l r : Ty}
    {e : TypeError} (hclash : s'.Clash e (s.resolve l) (s.resolve r)) :
    s.Fails [(l, r)] e s' := by
  refine .one h.toAlike.extends (h.reuses hs _) ⟨[], _, _, Ty.partsFrom_top _ _, ?_⟩
  rwa [h.toAlike.resolve_eq hs, h.toAlike.resolve_eq hs]

theorem Fails.append {s s' : Store} {es : List (Ty × Ty)} {e : TypeError} (h : s.Fails es e s')
    (fs : List (Ty × Ty)) : s.Fails (es ++ fs) e s' where
  extend := h.extend
  reuses C hC heqs := h.reuses C hC fun p hp => heqs p (List.mem_append_left _ hp)
  conflict := by
    obtain ⟨pre, l, r, post, rfl, hpre, hdis⟩ := h.conflict
    exact ⟨pre, l, r, post ++ fs, by simp, hpre, hdis⟩

theorem Adds.resolve_eq {s s' : Store} {eqs : List (Ty × Ty)} (h : s.Adds eqs s') {p : Ty × Ty}
    (hp : p ∈ eqs) : s'.resolve p.1 = s'.resolve p.2 := by
  have hsol := (h.solved_iff _).mp (solvedBy_resolve h.wellFormed.acyclic)
  rw [resolve_eq_subst, resolve_eq_subst s' p.2]
  exact hsol.2 p hp

/-- Equations that have been added stay settled. -/
theorem Adds.fails {s₁ s₂ s₃ : Store} {es fs : List (Ty × Ty)} {e : TypeError}
    (h : s₁.Adds es s₂) (hs : s₁.WellFormed) (h' : s₂.Fails fs e s₃) :
    s₁.Fails (es ++ fs) e s₃ where
  extend := h.toExtends.trans h'.extend
  reuses := (h.reuses hs).trans h'.reuses
  conflict := by
    obtain ⟨pre, l, r, post, rfl, hpre, hdis⟩ := h'.conflict
    refine ⟨es ++ pre, l, r, post, by simp, fun p hp => ?_, hdis⟩
    rcases List.mem_append.mp hp with hp | hp
    · exact h'.extend.resolve_eq (h.resolve_eq hp)
    · exact hpre p hp

/-- A conflict of arguments is one of the applied constructors. -/
theorem Fails.args {s s' : Store} {as bs : List Ty} {e : TypeError}
    (h : s.Fails (as.zip bs) e s') (hlen : as.length = bs.length) (c : TypeCon) :
    s.Fails [(.con c as, .con c bs)] e s' := by
  refine .one h.extend (fun C hC heqs => ?_) ?_
  · obtain ⟨has, hbs⟩ := heqs _ (List.mem_singleton.mpr rfl)
    refine h.reuses C hC fun p hp => ?_
    obtain ⟨ha, hb⟩ := List.of_mem_zip hp
    exact ⟨(Ty.over_con.mp has).2 _ ha, (Ty.over_con.mp hbs).2 _ hb⟩
  · obtain ⟨pre, a, b, post, hzip, hpre, p, a', b', hparts, hclash⟩ := h.conflict
    obtain ⟨us, xs, ys, has, hbs⟩ := exists_map_eq_of_zip hlen hzip hpre
    refine ⟨us.length :: p, a', b', ?_, hclash⟩
    rw [resolve_con, resolve_con, has, hbs]
    exact hparts.arg c c _ _ _

theorem Represents.over {s : Store} {t r : Ty} (h : s.Represents t r) {C : Set TypeCon}
    (hs : s.Over C) (ht : t.Over C) : r.Over C :=
  Over.of_resolve (h.resolve_eq ▸ hs.resolve ht)

theorem Fails.of_represents {s s' : Store} {l l' r r' : Ty} {e : TypeError}
    (h : s.Fails [(l', r')] e s') (hl : s.Represents l l') (hr : s.Represents r r') :
    s.Fails [(l, r)] e s' := by
  refine .one h.extend (fun C hC heqs => ?_) ?_
  · obtain ⟨hlC, hrC⟩ := heqs _ (List.mem_singleton.mpr rfl)
    refine h.reuses C hC fun p hp => ?_
    obtain rfl := List.mem_singleton.mp hp
    exact ⟨hl.over hC hlC, hr.over hC hrC⟩
  · rw [Disagrees, ← h.extend.resolve_eq hl.resolve_eq, ← h.extend.resolve_eq hr.resolve_eq]
    exact h.disagrees

/-- What a text was made from is displayed as that text. -/
theorem Displays.display_resolve {s s' : Store} {t : Ty} {x : String} (hs : s.WellFormed)
    (hq : s.Quiet s') (h : s'.Displays (s.resolve t) x) : ((s.resolve t).display s').1 = x := by
  refine Displays.display_eq hq.wellFormed ?_
  rwa [hq.toAlike.extends.resolve_resolve, hq.toAlike.resolve_eq hs]

end Store

/-! ## One variable -/

/-- A variable that cannot be bound occurs in the term, and the error displays both. -/
theorem bind_clash {s : Store} (hs : s.WellFormed) {v : Var} {r : Ty} (hv : s.link? v = none)
    {σ : Session} (hσ : s.Quiet σ.store) :
    Ends (v.bind r) σ (fun _ _ => True) fun e σ' => s.Quiet σ'.store
      ∧ ∃ c args, s.resolve r = .con c args ∧ v ∈ (s.resolve r).vars
        ∧ e = .recursive ((Ty.var v).display σ'.store).1 ((s.resolve r).display σ'.store).1 := by
  cases r with
  | var w =>
      rw [Var.bind]
      split <;> trivial
  | con c args =>
      rw [Var.bind]
      refine Ends.reads (Store.reads_occursIn hs v _) hσ fun b σ₁ hb h₁ => ?_
      by_cases hocc : v ∈ (s.resolve (.con c args)).vars
      · rw [hb, decide_eq_true hocc]
        refine Ends.display hs h₁ _ fun var σ₂ h₂ hret hvar => ?_
        refine Ends.display hs h₂ _ fun ty σ₃ h₃ hret' hty => ?_
        have hvar' := (hvar.retains hret').display_resolve hs h₃
        rw [Store.resolve_of_unbound hv] at hvar'
        refine Ends.throw ⟨h₃, c, _, Store.resolve_con s c args, hocc, ?_⟩
        rw [hvar', hty.display_resolve hs h₃]
      · rw [hb, decide_eq_false hocc]
        trivial

/-! ## Whole terms -/

theorem forM_fails {H n : Nat}
    (hone : ∀ {l r σ}, σ.store.WellFormed → σ.store.HeightLe H → σ.store.Ready H n l r →
      Ends (unifyWithin n l r) σ (fun _ _ => True) fun e σ' => σ.store.Fails [(l, r)] e σ'.store)
    (eqs : List (Ty × Ty)) {σ : Session} (hs : σ.store.WellFormed) (hH : σ.store.HeightLe H)
    (hready : ∀ p ∈ eqs, σ.store.Ready H n p.1 p.2) :
    Ends (eqs.forM fun (a, b) => unifyWithin n a b) σ (fun _ _ => True)
      fun e σ' => σ.store.Fails eqs e σ'.store := by
  induction eqs generalizing σ with
  | nil => trivial
  | cons p eqs ih =>
      have hp := hready p (List.mem_cons_self ..)
      have hfirst := Ends.and (hone hs hH hp) (unifyWithin_settles n hs hH hp)
      refine Ends.bind (Ends.mono hfirst (fun _ _ h => h.2) fun _ _ h => h.append eqs) ?_
      rintro _ σ₁ ⟨hadds, hH₁⟩
      have hrest := ih hadds.wellFormed hH₁ fun q hq =>
        (hready q (List.mem_cons_of_mem _ hq)).extend hadds.toExtends hadds.size_eq
      exact Ends.mono hrest (fun _ _ h => h) fun _ _ h => hadds.fails hs h

/-- The same induction as for `unifyWithin_settles`, which gives what the equations before the one
that fails have come to: their sides are the same by then. So the conflict of the arguments is the
first one of the applied constructors as well, and it is found in the store that is left behind. -/
theorem unifyWithin_fails {H : Nat} (n : Nat) {l r : Ty} {σ : Session}
    (hs : σ.store.WellFormed) (hH : σ.store.HeightLe H) (hready : σ.store.Ready H n l r) :
    Ends (unifyWithin n l r) σ (fun _ _ => True)
      fun e σ' => σ.store.Fails [(l, r)] e σ'.store := by
  induction n generalizing l r σ with
  | zero => exact absurd (hready.deep.pos hH) (Nat.lt_irrefl 0)
  | succ n ih =>
      rw [unifyWithin]
      refine Ends.reads (Store.reads_prune hs l) (.refl hs) fun l' σ₁ hl h₁ => ?_
      refine Ends.reads (Store.reads_prune hs r) h₁ fun r' σ₂ hr h₂ => ?_
      refine Ends.bind (announce_ends hs h₂ l' r') fun _ σ₃ h₃ => ?_
      -- representatives stand for the terms, so it is enough to find the conflict in them
      refine Ends.mono (P := fun _ _ => True)
        (E := fun e σ' => σ.store.Fails [(l', r')] e σ'.store) ?_ (fun _ _ h => h)
        fun _ _ h => h.of_represents hl hr
      cases l' with
      | var v =>
          have hv : σ.store.link? v = none := hl.representative
          refine Ends.mono (bind_clash hs hv h₃) (fun _ _ h => h) ?_
          rintro e σ' ⟨hq, c, args, hcon, hocc, rfl⟩
          refine hq.fails hs ?_
          rw [Store.resolve_of_unbound hv, hcon]
          exact .left ((hq.bound_iff v).mpr hv) (hcon ▸ hocc)
      | con c as =>
          cases r' with
          | var w =>
              -- the sides change places for the binding, but not in the conflict
              have hw : σ.store.link? w = none := hr.representative
              refine Ends.bind (announce_ends hs h₃ _ _) fun _ σ₄ h₄ => ?_
              refine Ends.mono (bind_clash hs hw h₄) (fun _ _ h => h) ?_
              rintro e σ' ⟨hq, d, args, hcon, hocc, rfl⟩
              refine hq.fails hs ?_
              rw [Store.resolve_of_unbound hw, hcon]
              exact .right ((hq.bound_iff w).mpr hw) (hcon ▸ hocc)
          | con d bs =>
              dsimp only
              split
              · next h =>
                  obtain ⟨rfl, hlen⟩ := h
                  have hargs := forM_fails ih (as.zip bs) h₃.wellFormed (h₃.height_le H hH)
                    fun p hp => (hready.args hH hl hr hp).extend h₃.toAlike.extends h₃.size_eq
                  refine Ends.mono hargs (fun _ _ h => h) fun e σ' h => ?_
                  exact (h₃.adds_nil.fails hs h).args hlen c
              · next h =>
                  refine Ends.display hs h₃ _ fun expected σ₄ h₄ hret hexp => ?_
                  refine Ends.display hs h₄ _ fun found σ₅ h₅ hret' hfound => ?_
                  -- the names that the first text needs are still there after the second
                  refine Ends.throw (h₅.fails hs ?_)
                  rw [← (hexp.retains hret').display_resolve hs h₅, ← hfound.display_resolve hs h₅,
                    Store.resolve_con, Store.resolve_con]
                  refine .mismatch ?_
                  rw [List.length_map, List.length_map]
                  exact not_and_or.mp h

/-- Where unification fails, the error is about two sub-terms at one position of both terms, as they
are when it ends, and left of it the terms are the same. The sub-terms clash, and the error shows
them as they are displayed; where ids tell the constructors in use apart, different constructors
have different ids. -/
theorem unify_error_locates {σ σ' : Session} {l r : Ty} {e : TypeError} (hs : σ.store.WellFormed)
    (hl : σ.store.Covers l) (hr : σ.store.Covers r) (h : unify l r σ = .error e σ') :
    ∃ p a b, (σ'.store.resolve l).PartsFrom (σ'.store.resolve r) p a b ∧ σ'.store.Clash e a b
      ∧ ∀ C : Set TypeCon, Set.InjOn TypeCon.id C → σ.store.Over C → l.Over C → r.Over C →
          ∀ c d as bs, a = .con c as → b = .con d bs → as.length = bs.length → c.id ≠ d.id := by
  have hfails := Ends.of_error (unifyWithin_fails _ hs
    (σ.store.heightLe_height.mono (Nat.le_max_left ..)) (Store.ready_budget hl hr)) h
  obtain ⟨p, a, b, hparts, hclash⟩ := hfails.disagrees
  refine ⟨p, a, b, hparts, hclash, ?_⟩
  rintro C hinj hC hlC hrC c d as bs rfl rfl hlen hid
  have hC' : σ'.store.Over C := hfails.reuses C hC fun q hq => by
    obtain rfl := List.mem_singleton.mp hq
    exact ⟨hlC, hrC⟩
  have hc := (Ty.over_con.mp ((hC'.resolve hlC).at? hparts.left)).1
  have hd := (Ty.over_con.mp ((hC'.resolve hrC).at? hparts.right)).1
  cases hclash with
  | mismatch hne => exact hne.elim (fun hcd => hcd (hinj hc hd hid)) fun hne => hne hlen

/-- `(#2, #0 -> #2)` and `(#1 -> Int, List Bool -> Bool)`: by the time that `#2` is compared with
`Bool` both it and `#1` are linked. -/
theorem unify_error_locates_sample :
    let l := Ty.tuple [.var ⟨2⟩, .fn (.var ⟨0⟩) (.var ⟨2⟩)]
    let r := Ty.tuple [.fn (.var ⟨1⟩) (.nullary .int),
      .fn (.list (.nullary .bool)) (.nullary .bool)]
    Store.sample.WellFormed ∧ Store.sample.Covers l ∧ Store.sample.Covers r
      ∧ ∃ σ', unify l r { store := Store.sample } = .error (.mismatch "Bool -> Int" "Bool") σ'
        ∧ ∃ p a b, (σ'.store.resolve l).PartsFrom (σ'.store.resolve r) p a b
          ∧ σ'.store.Clash (.mismatch "Bool -> Int" "Bool") a b
          ∧ ∀ c d as bs, a = .con c as → b = .con d bs → as.length = bs.length → c.id ≠ d.id := by
  intro l r
  have hl : Store.sample.Covers l := by decide +kernel
  have hr : Store.sample.Covers r := by decide +kernel
  obtain ⟨e, σ', h, rfl⟩ : Fails (unify l r { store := Store.sample }) fun e _ =>
      e = .mismatch "Bool -> Int" "Bool" := by decide +kernel
  obtain ⟨p, a, b, hparts, hclash, hids⟩ :=
    unify_error_locates (σ := { store := Store.sample }) Store.sample_wellFormed hl hr h
  have hinj : ∀ c ∈ TypeCon.builtins, ∀ d ∈ TypeCon.builtins, c.id = d.id → c = d := by decide
  refine ⟨Store.sample_wellFormed, hl, hr, σ', h, p, a, b, hparts, hclash, ?_⟩
  refine hids { c | c ∈ TypeCon.builtins } (fun c hc d hd => hinj c hc d hd) ?_ ?_ ?_
  all_goals decide +kernel

end Overload
