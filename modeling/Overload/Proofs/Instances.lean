import Overload.Proofs.Application

/-!
# Instances of declared types

Using a declared type means copying it, and several types of one declaration are copied alike: the
renaming that one copy ends with is where the next one starts. Under a solution `θ` the replacements
have values, and these are an instance `ψ` of the declared variables. `Renaming.Carries` ties the
two together, and goes both ways: the values of replacements are an instance that each copy agrees
with (`Copied.value`), and every instance is reached by choosing the values of the replacements that
a copy adds (`Copied.realize`).
-/

namespace Overload

namespace Renaming

/-- Each replacement has in `θ` the value that `ψ` gives to what it replaces. -/
def Carries (m : Renaming) (ψ θ : Subst) : Prop := ∀ v w, m.lookup v = some w → θ w = ψ v

theorem carries_nil (ψ θ : Subst) : Carries [] ψ θ := fun _ _ h => nomatch h

/-- The instance that the replacements make up. -/
def valuesIn (m : Renaming) (θ : Subst) : Subst := fun v => (m.toSubst [] v).subst θ

theorem carries_valuesIn (m : Renaming) (θ : Subst) : m.Carries (m.valuesIn θ) θ := by
  intro v w hw
  rw [valuesIn, toSubst_of_lookup List.not_mem_nil hw, Ty.subst_var]

theorem Grows.carries {m m' : Renaming} {k k' : Nat} (hg : m.Grows k m' k') {ψ θ : Subst}
    (h : m'.Carries ψ θ) : m.Carries ψ θ := fun v w hw => h v w (hg.keeps v w hw)

theorem Carries.sameOn {m : Renaming} {ψ θ θ' : Subst} (h : m.Carries ψ θ) {s : Store} {a : Nat}
    (hm : m.Between a s.size) (hold : s.SameOn θ' θ) : m.Carries ψ θ' := fun v w hw => by
  rw [hold w (hm v w hw).2, h v w hw]

theorem Carries.subst_eq {m : Renaming} {ψ θ : Subst} (h : m.Carries ψ θ) {t : Ty}
    (hmet : ∀ v ∈ t.vars, ∃ w, m.lookup v = some w) :
    (t.subst (m.toSubst [])).subst θ = t.subst ψ := by
  rw [Ty.subst_subst]
  refine Ty.subst_congr fun v hv => ?_
  obtain ⟨w, hw⟩ := hmet v hv
  rw [toSubst_of_lookup List.not_mem_nil hw, Ty.subst_var, h v w hw]

/-- The replacements added by a copy are distinct and new, so they may take any values. -/
theorem Grows.realize {m m' : Renaming} {a k k' : Nat} (hg : m.Grows k m' k')
    (hm : m.Between a k) {ψ θ : Subst} (h : m.Carries ψ θ) :
    ∃ θ', (∀ v : Var, v.index < k → θ' v = θ v) ∧ m'.Carries ψ θ' := by
  classical
  let Added (w v : Var) : Prop := m.lookup v = none ∧ m'.lookup v = some w
  let θ' : Subst := fun w => if hw : ∃ v, Added w v then ψ hw.choose else θ w
  have hold : ∀ w : Var, w.index < k → θ' w = θ w := by
    intro w hlt
    refine dif_neg ?_
    rintro ⟨v, hv, hw⟩
    have hb := hg.bounds hv hw
    omega
  refine ⟨θ', hold, fun v w hw => ?_⟩
  cases hv : m.lookup v with
  | some w' =>
      obtain rfl := Option.some.inj ((hg.keeps v w' hv).symm.trans hw)
      rw [hold w' (hm v w' hv).2, h v w' hv]
  | none =>
      have hex : ∃ v, Added w v := ⟨v, hv, hw⟩
      obtain ⟨hv', hw'⟩ := hex.choose_spec
      exact (dif_pos hex).trans (congrArg ψ (hg.inj _ v w hv' hv hw' hw))

end Renaming

namespace Store

/-! ## Copies that go on from a renaming -/

/-- `u` is a copy of `t` that goes on from `m` and ends with `m'`. -/
structure Copied (s : Store) (m : Renaming) (t : Ty) (s' : Store) (m' : Renaming) (u : Ty) :
    Prop where
  alike : s.Alike s'
  grows : m.Grows s.size m' s'.size
  met : ∀ v ∈ (s.resolve t).vars, ∃ w, m'.lookup v = some w
  eq : u = (s.resolve t).subst (m'.toSubst [])

theorem Copies.grows {s : Store} {x : StateT Renaming StoreM α} {vs : List Var}
    {g : Renaming → α} (h : s.Copies [] x vs g) (hs : s.WellFormed) (m : Renaming) :
    m.Grows s.size (x m s).1.2 (x m s).2.size ∧ ∀ v ∈ vs, ∃ w, (x m s).1.2.lookup v = some w := by
  obtain ⟨-, hmeet, -⟩ := h m s (.refl hs)
  have hgrows := Renaming.grows_meetAll [] vs m s.size
  rw [← hmeet] at hgrows
  refine ⟨hgrows, fun v hv => ?_⟩
  have hmet := Renaming.met [] hv m s.size
  rw [← hmeet] at hmet
  exact hmet.resolve_left List.not_mem_nil

theorem copied_copyWith {s : Store} (hs : s.WellFormed) (t : Ty) (p : SupplyId) (m : Renaming) :
    s.Copied m t (t.copyWith [] p m s).2 (t.copyWith [] p m s).1.2 (t.copyWith [] p m s).1.1 := by
  have hcopies := copies_copyWith hs t [] p
  obtain ⟨halike, -, heq⟩ := hcopies m s (.refl hs)
  obtain ⟨hgrows, hmet⟩ := hcopies.grows hs m
  exact ⟨halike, hgrows, hmet, heq⟩

/-- Several terms are copied alike as the arguments of one constructor are. -/
theorem copied_copyAll {s : Store} (hs : s.WellFormed) (c : TypeCon) (ts : List Ty) (p : SupplyId)
    (m : Renaming) :
    s.Copied m (.con c ts) (Ty.copyAll ts [] p m s).2 (Ty.copyAll ts [] p m s).1.2
      (.con c (Ty.copyAll ts [] p m s).1.1) := by
  have hcopies := Copies.mapM ts fun t _ => copies_copyWith hs t [] p
  obtain ⟨halike, -, heq⟩ := hcopies m s (.refl hs)
  obtain ⟨hgrows, hmet⟩ := hcopies.grows hs m
  refine ⟨halike, hgrows, fun v hv => hmet v ?_, ?_⟩
  · rwa [resolve_con, Ty.vars_con, List.flatMap_map] at hv
  · rw [resolve_con, Ty.subst_con, List.map_map]
    exact congrArg (Ty.con c) heq

namespace Copied

variable {s s' : Store} {m m' : Renaming} {t u : Ty}

theorem value (h : s.Copied m t s' m' u) {ψ θ : Subst} (hc : m'.Carries ψ θ) :
    u.subst θ = (s.resolve t).subst ψ := by
  rw [h.eq]
  exact hc.subst_eq h.met

theorem realize (h : s.Copied m t s' m' u) (hs : s.WellFormed) {a : Nat}
    (hm : m.Between a s.size) {ψ θ : Subst} (hθ : s.SolvedBy θ) (hc : m.Carries ψ θ) :
    ∃ θ', s'.SolvedBy θ' ∧ s.SameOn θ' θ ∧ m'.Carries ψ θ' := by
  obtain ⟨θ', hold, hc'⟩ := h.grows.realize hm hc
  exact ⟨θ', (h.alike.solved_iff θ').mpr (hθ.congr hs hold), hold, hc'⟩

theorem alike_right (h : s.Copied m t s' m' u) {s'' : Store} (h' : s'.Alike s'') :
    s.Copied m t s'' m' u where
  alike := h.alike.trans h'
  grows :=
    { h.grows with
      le := Nat.le_trans h.grows.le h'.size_le
      new := fun v w hw => (h.grows.new v w hw).imp_right fun hb =>
        ⟨hb.1, Nat.lt_of_lt_of_le hb.2 h'.size_le⟩ }
  met := h.met
  eq := h.eq

end Copied

/-- The declared type is copied from nothing, and all variables of the copy are fixed. -/
theorem copied_openCopy {s : Store} (hs : s.WellFormed) (sig : Signature) (p : SupplyId) :
    s.Copied [] sig.toTy (sig.openCopy p s).2 (sig.openCopy p s).1.copies (sig.openCopy p s).1.ty
      ∧ (sig.openCopy p s).1.Ready (sig.openCopy p s).2 := by
  have hcopied := copied_copyWith hs sig.toTy p []
  have hwf := hcopied.alike.wellFormed
  obtain ⟨hfixed, hq⟩ := (reads_freeVars hwf (sig.toTy.copyWith [] p [] s).1.1).here hwf
  obtain ⟨-, hty, hlt⟩ := openCopy_spec sig p hs
  refine ⟨hcopied.alike_right hq.toAlike, fun w hw => (hty w hw).2, fun f hf => (hlt f hf).2, ?_⟩
  have hfixed : (sig.openCopy p s).1.fixed = addNew [] (sig.openCopy p s).1.ty.vars :=
    hfixed.trans (congrArg (fun t => addNew [] t.vars) (hcopied.alike.resolve_new hty))
  rw [hfixed]
  exact fun w hw => mem_addNew.mpr (.inr hw)

end Store

/-! ## Types of known shape -/

@[simp] theorem Ty.subst_nullary (θ : Subst) (c : TypeCon) :
    (Ty.nullary c).subst θ = .nullary c := by
  simp [Ty.nullary]

@[simp] theorem Ty.subst_list (θ : Subst) (t : Ty) : (Ty.list t).subst θ = .list (t.subst θ) := by
  simp [Ty.list]

@[simp] theorem Ty.subst_tuple (θ : Subst) (ts : List Ty) :
    (Ty.tuple ts).subst θ = .tuple (ts.map (Ty.subst θ)) := by
  simp [Ty.tuple]

@[simp] theorem Ty.subst_chain (θ : Subst) (ts : List Ty) (t : Ty) :
    (Ty.chain ts t).subst θ = .chain (ts.map (Ty.subst θ)) (t.subst θ) := by
  induction ts with
  | nil => rfl
  | cons u us ih => rw [Ty.chain_cons, Ty.subst_fn, ih, List.map_cons, Ty.chain_cons]

theorem Ty.chain_append (ts us : List Ty) (t : Ty) :
    Ty.chain (ts ++ us) t = .chain ts (.chain us t) :=
  List.foldr_append

/-- New variables, as many as asked for, may take any values. -/
theorem mapM_freshTy_realize (p : SupplyId) (xs : List Unit) {s : Store} (hs : s.WellFormed)
    {θ : Subst} (hθ : s.SolvedBy θ) {us : List Ty} (hlen : us.length = xs.length) :
    ∃ θ', (xs.mapM (fun _ => p.freshTy) s).2.SolvedBy θ' ∧ s.SameOn θ' θ
      ∧ (xs.mapM (fun _ => p.freshTy) s).1.map (Ty.subst θ') = us := by
  induction xs generalizing s θ us with
  | nil =>
      obtain rfl := List.length_eq_zero_iff.mp hlen
      exact ⟨θ, hθ, fun _ _ => rfl, rfl⟩
  | cons x xs ih =>
      obtain ⟨u, us, rfl⟩ := List.exists_cons_of_length_eq_add_one hlen
      have halike := Store.alike_fresh hs p
      obtain ⟨θ₁, hθ₁, hold₁, hu⟩ := hθ.fresh hs p u
      obtain ⟨θ₂, hθ₂, hold₂, hus⟩ := ih halike.wellFormed hθ₁ (Nat.succ.inj hlen)
      rw [List.mapM_cons]
      refine ⟨θ₂, hθ₂, hold₂.trans halike.size_le hold₁, congrArg₂ List.cons ?_ hus⟩
      rw [← hu]
      exact (Ty.subst_var ..).trans (hold₂ _ (Store.covers_var.mp (Store.covers_fresh p s)))

theorem length_mapM_freshTy (p : SupplyId) (xs : List Unit) (s : Store) :
    (xs.mapM (fun _ => p.freshTy) s).1.length = xs.length := by
  induction xs generalizing s with
  | nil => rfl
  | cons x xs ih =>
      rw [List.mapM_cons]
      exact congrArg (· + 1) (ih (p.fresh s).2)

end Overload
