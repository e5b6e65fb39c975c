import Overload.Proofs.Lockstep
import Overload.Proofs.Steps
import Overload.Proofs.ValueTypes

/-!
# Tracing changes nothing

A report renders the two terms of a unification, and rendering is not a mere look: it shortens
chains of links and hands out names. So a run that is traced and one that is not soon have
different stores. They stay level (`Store.Level`): as many variables, and every term stands for the
same in both. All decisions go by what terms stand for, so the two runs make the same ones and
return the same types (`typeOf_agreed`). What is left to differ is said by `Session.Agrees`.
-/

namespace Overload

theorem Ty.rename_id (t : Ty) : t.rename id = t := Ty.subst_id t

namespace Store

variable {s₁ s₂ s₁' s₂' : Store}

/-! ## Level stores -/

/-- The stores have as many variables, and every term stands for the same in both. -/
structure Level (s₁ s₂ : Store) : Prop where
  left : s₁.WellFormed
  right : s₂.WellFormed
  size_eq : s₁.size = s₂.size
  resolve_eq : ∀ t, s₁.resolve t = s₂.resolve t

namespace Level

theorem refl {s : Store} (hs : s.WellFormed) : s.Level s := ⟨hs, hs, rfl, fun _ => rfl⟩

theorem paired (h : s₁.Level s₂) : s₁.Paired id s₂ :=
  ⟨h.left, h.right, fun k => by rw [id, h.size_eq]⟩

/-- Every term is its own twin. -/
theorem twin (h : s₁.Level s₂) (t : Ty) : s₁.Twin id s₂ t t := by
  rw [Twin, Ty.rename_id, h.resolve_eq]

theorem shares (h : s₁.Level s₂) {t : Ty} (ht : s₁.Covers t) : s₁.Shares id s₂ t t :=
  ⟨ht, ht.mono (Nat.le_of_eq h.size_eq), h.twin t⟩

theorem aligns (h : s₁.Level s₂) {Γ : Env} {fixed : List Var} (hΓ : s₁.Scopes Γ fixed) :
    s₁.Aligns id s₂ Γ Γ fixed where
  env x := by
    cases hx : Γ.get? x with
    | none => exact .none
    | some t => exact .some (h.shares (hΓ.env hx))
  fixed f _ := h.twin (.var f)

theorem advance (h : s₁.Level s₂) (hadv : s₁.Advances id s₂ s₁' s₂') : s₁'.Level s₂' where
  left := hadv.left.wellFormed
  right := hadv.right.wellFormed
  size_eq := congrArg Var.index (hadv.next 0)
  resolve_eq t := by
    have htwin := hadv.twins (h.twin t)
    rw [Twin, Ty.rename_id] at htwin
    exact htwin.symm

theorem isBound_eq (h : s₁.Level s₂) (v : Var) : s₁.isBound v = s₂.isBound v := by
  have hunbound : ∀ {s : Store}, s.WellFormed →
      (s.isBound v = false ↔ s.resolve (.var v) = .var v) := by
    intro s hs
    rw [isBound, Option.isSome_eq_false_iff, Option.isNone_iff_eq_none]
    refine ⟨resolve_of_unbound, fun hv => ?_⟩
    have hun := unlinked_resolve hs.acyclic (.var v)
    rw [hv] at hun
    exact hun v (by simp)
  have hiff : s₁.isBound v = false ↔ s₂.isBound v = false := by
    rw [hunbound h.left, hunbound h.right, h.resolve_eq]
  exact Bool.eq_iff_iff.mpr (by simpa using not_congr hiff)

/-- A copy goes by the resolved term and the number of variables. -/
theorem copies (h : s₁.Level s₂) {α : Type} {x : StateT Renaming StoreM α} {kept vs : List Var}
    {g : Renaming → α} (h₁ : s₁.Copies kept x vs g) (h₂ : s₂.Copies kept x vs g) (m : Renaming) :
    (x m s₁).1 = (x m s₂).1 ∧ s₁.Advances id s₂ (x m s₁).2 (x m s₂).2 := by
  obtain ⟨halike₁, hm₁, hg₁⟩ := h₁ m s₁ (.refl h.left)
  obtain ⟨halike₂, hm₂, hg₂⟩ := h₂ m s₂ (.refl h.right)
  rw [h.size_eq, ← hm₂] at hm₁
  obtain ⟨hm, hsize⟩ := Prod.mk.inj hm₁
  refine ⟨Prod.ext ?_ hm, h.paired.alike halike₁ halike₂ fun k => by rw [id, hsize]⟩
  rw [hg₁, hg₂, hm]

end Level

end Store

/-! ## Computations on level stores -/

/-- From level stores the computation answers the same, and leaves level ones. -/
def Steady (x : StoreM α) : Prop :=
  ∀ s₁ s₂ : Store, s₁.Level s₂ → (x s₁).1 = (x s₂).1 ∧ s₁.Advances id s₂ (x s₁).2 (x s₂).2

namespace Steady

variable {α β : Type}

theorem pure (a : α) : Steady (pure a) := fun _ _ h => ⟨rfl, h.paired.refl⟩

theorem bind {x : StoreM α} {f : α → StoreM β} (hx : Steady x) (hf : ∀ a, Steady (f a)) :
    Steady (x >>= f) := by
  intro s₁ s₂ h
  obtain ⟨heq, hadv⟩ := hx s₁ s₂ h
  obtain ⟨heq', hadv'⟩ := hf (x s₁).1 _ _ (h.advance hadv)
  rw [heq] at heq' hadv'
  have hbind : ∀ s, (x >>= f) s = f (x s).1 (x s).2 := fun _ => rfl
  rw [hbind, hbind, heq]
  exact ⟨heq', hadv.trans hadv'⟩

theorem mapM {f : α → StoreM β} (hf : ∀ a, Steady (f a)) (xs : List α) : Steady (xs.mapM f) := by
  induction xs with
  | nil => exact .pure []
  | cons x xs ih =>
      rw [List.mapM_cons]
      exact (hf x).bind fun _ => ih.bind fun _ => .pure _

theorem freshTy (p : SupplyId) : Steady p.freshTy := by
  intro s₁ s₂ h
  obtain ⟨hadv, heq, -⟩ := h.paired.fresh p
  exact ⟨congrArg Ty.var heq.symm, hadv⟩

theorem freeVars (t : Ty) : Steady t.freeVars := by
  intro s₁ s₂ h
  obtain ⟨hvars₁, hq₁⟩ := (Store.reads_freeVars h.left t).here h.left
  obtain ⟨hvars₂, hq₂⟩ := (Store.reads_freeVars h.right t).here h.right
  rw [hvars₁, hvars₂, h.resolve_eq]
  exact ⟨rfl, h.paired.quiet hq₁ hq₂⟩

theorem copyWith (t : Ty) (p : SupplyId) (m : Renaming) : Steady (t.copyWith [] p m) := by
  intro s₁ s₂ h
  have h₂ := Store.copies_copyWith h.right t [] p
  rw [← h.resolve_eq] at h₂
  exact h.copies (Store.copies_copyWith h.left t [] p) h₂ m

theorem copyAll (ts : List Ty) (p : SupplyId) (m : Renaming) : Steady (Ty.copyAll ts [] p m) := by
  intro s₁ s₂ h
  have h₂ := Store.Copies.mapM ts fun t _ => Store.copies_copyWith h.right t [] p
  simp only [← h.resolve_eq] at h₂
  exact h.copies (Store.Copies.mapM ts fun t _ => Store.copies_copyWith h.left t [] p) h₂ m

theorem copy (t : Ty) (p : SupplyId) : Steady (t.copy [] p) :=
  (copyWith t p []).bind fun _ => .pure _

theorem openCopy (sig : Signature) (p : SupplyId) : Steady (sig.openCopy p) :=
  (copyWith _ p []).bind fun _ => (freeVars _).bind fun _ => .pure _

theorem unknownFunction (p : SupplyId) (arity : Nat) : Steady (Ty.unknownFunction p arity) :=
  (mapM (fun _ => freshTy p) _).bind fun _ => (freshTy p).bind fun _ => .pure _

theorem foreign (object : Foreign) (p : SupplyId) : Steady (object.typeOf p) := by
  rw [Foreign.typeOf]
  split
  · split
    · exact copy _ p
    · exact .pure _
  · exact .pure _

end Steady

/-- Both runs of the computation end with the same value or with like errors, and with level
stores. -/
def Agreed (x : Infer α) (σ₁ σ₂ : Session) : Prop :=
  Matched (σ₁.store.Advances id σ₂.store) x σ₁ x σ₂ fun a b _ _ => a = b

namespace Agreed

variable {α β : Type} {s : Store} {fixed : List Var} {σ₁ σ₂ : Session} {P : α → Store → Prop}

theorem pure (h : σ₁.store.Level σ₂.store) (a : α) : Agreed (pure a) σ₁ σ₂ :=
  Matched.pure h.paired.refl rfl

theorem store {x : StoreM α} (h : σ₁.store.Level σ₂.store) (hx : Steady x) :
    Agreed (liftM x) σ₁ σ₂ :=
  Matched.lift (hx _ _ h).2 (hx _ _ h).1

/-- What is known of the first run alone may be drawn on in what follows. -/
theorem bind {x : Infer α} {f : α → Infer β} (h : σ₁.store.Level σ₂.store) (hx : Agreed x σ₁ σ₂)
    (hkeeps : Keeps x s fixed σ₁ P)
    (hf : ∀ a σ₁' σ₂', σ₁'.store.Level σ₂'.store → s.Confined fixed σ₁'.store →
      σ₁.store.Extends σ₁'.store → P a σ₁'.store → Agreed (f a) σ₁' σ₂') :
    Agreed (x >>= f) σ₁ σ₂ := by
  cases hx with
  | @ok a b σ₁' σ₂' h₁ h₂ hadv hab =>
      subst hab
      obtain ⟨⟨hconf, hext⟩, hP⟩ := Ends.of_ok hkeeps h₁
      cases (hf a σ₁' σ₂' (h.advance hadv) hconf hext hP).after hadv with
      | ok h₁' h₂' hadv' hab' =>
          exact .ok ((bind_of_ok h₁).trans h₁') ((bind_of_ok h₂).trans h₂') hadv' hab'
      | error h₁' h₂' hadv' hlike =>
          exact .error ((bind_of_ok h₁).trans h₁') ((bind_of_ok h₂).trans h₂') hadv' hlike
  | error h₁ h₂ hadv hlike => exact .error (bind_of_error h₁) (bind_of_error h₂) hadv hlike

theorem map {x : Infer α} (hx : Agreed x σ₁ σ₂) (f : α → β) :
    Agreed (x >>= fun a => Pure.pure (f a)) σ₁ σ₂ := by
  cases hx with
  | ok h₁ h₂ hadv hab => exact .ok (bind_of_ok h₁) (bind_of_ok h₂) hadv (congrArg f hab)
  | error h₁ h₂ hadv hlike => exact .error (bind_of_error h₁) (bind_of_error h₂) hadv hlike

end Agreed

theorem unify_agreed {σ₁ σ₂ : Session} (h : σ₁.store.Level σ₂.store) {l r : Ty}
    (hl : σ₁.store.Covers l) (hr : σ₁.store.Covers r) : Agreed (unify l r) σ₁ σ₂ :=
  unify_matched Function.injective_id h.paired (h.shares hl) (h.shares hr)
    |>.mono (fun h => h) fun _ _ => rfl

theorem analyze_agreed (e : Expr) {σ₁ σ₂ : Session} (h : σ₁.store.Level σ₂.store) {p : SupplyId}
    {Γ : Env} {fixed : List Var} (hΓ : σ₁.store.Scopes Γ fixed) :
    Agreed (e.analyze p Γ fixed) σ₁ σ₂ := by
  have hmatched := analyze_matched Function.injective_id e (p := p) h.paired (h.aligns hΓ)
  rw [List.map_id] at hmatched
  exact hmatched.mono (fun h => h) fun _ ht => (ht.eq_rename.trans (Ty.rename_id _)).symm

/-! ## Values

The first run draws on what typing a value may touch, so these lemmas follow `typeOf_keeps`. -/

section

variable {s : Store} {fixed : List Var}

theorem applyTo_agreed {σ₁ σ₂ : Session} (h : σ₁.store.Level σ₂.store)
    (hconf : s.Confined fixed σ₁.store) {o : Opened} (hty : σ₁.store.Covers o.ty)
    (hfixed : ∀ f ∈ o.fixed, s.size ≤ f.index ∧ f.index < σ₁.store.size) (p : SupplyId)
    (name : String) {args : List Ty} (hargs : ∀ t ∈ args, σ₁.store.Covers t) :
    Agreed (o.applyTo p name args) σ₁ σ₂ := by
  obtain ⟨Γ, e, heq, hscope⟩ :=
    Opened.applyTo_scoped hty (fun f hf => (hfixed f hf).2) p name hargs
  rw [heq]
  refine (analyze_agreed e h hscope).bind h
    (analyze_keeps e hconf hscope fun f hf => .inr (hfixed f hf).1)
    fun inferred σ₁' σ₂' h' hconf' _ hinferred => ?_
  refine (Agreed.store h' (.freshTy p)).bind h' (Keeps.freshTy hconf' p)
    fun ret σ₁'' σ₂'' h'' _ hext hret => ?_
  exact (unify_agreed h'' (hinferred.extend hext).covers hret.covers).map _

mutual

/-- By induction on the value, with the two sessions side by side: their stores are level before and
after each part, so that whatever one run finds, the other one finds as well. -/
theorem typeOf_agreed (p : SupplyId) : ∀ (v : Value) {σ₁ σ₂ : Session},
    σ₁.store.Level σ₂.store → s.Confined fixed σ₁.store → s.Admits fixed v.shared →
    Agreed (v.typeOf p) σ₁ σ₂
  | .unit, _, _, h, _, _ | .bool _, _, _, h, _, _ | .int _, _, _, h, _, _
  | .float _, _, _, h, _, _ | .text _, _, _, h, _, _ => by
      rw [Value.typeOf]
      exact .pure h _
  | .list [], _, _, h, _, _ => by
      rw [Value.typeOf]
      exact (Agreed.store h (.freshTy p)).map _
  | .list (v :: vs), _, _, h, hconf, hshared => by
      rw [Value.typeOf]
      rw [Value.shared, Value.sharedAll] at hshared
      refine (typeOf_agreed p v h hconf hshared.append.1).bind h
        (typeOf_keeps p v hconf hshared.append.1) fun elem _ _ h' hconf' _ helem => ?_
      exact (agreeWith_agreed p vs h' hconf' hshared.append.2 helem).map _
  | .tuple items, _, _, h, hconf, hshared => by
      rw [Value.typeOf]
      rw [Value.shared] at hshared
      exact (typesOf_agreed p items h hconf hshared).map _
  | .data type variant fields, _, _, h, hconf, hshared => by
      rw [Value.typeOf]
      rw [Value.shared] at hshared
      refine (Agreed.store h (.copyAll _ p [])).bind h
        (Keeps.copyAll hconf _ p (Renaming.between_nil _ _))
        fun ⟨params, m⟩ _ _ h' hconf' _ ⟨_, hm⟩ => ?_
      exact (fitFields_agreed p _ fields h' hconf' hshared hm).map _
  | .builtin _ arity _ args, _, _, h, _, _ => by
      rw [Value.typeOf]
      exact .store h (.unknownFunction p _)
  | .method ref args, _, _, h, _, _ => by
      rw [Value.typeOf]
      exact .store h (.unknownFunction p _)
  | .typed _ sig _ [], _, _, h, _, _ => by
      rw [Value.typeOf]
      exact .store h (.copy _ p)
  | .typed name sig _ (v :: vs), _, _, h, hconf, hshared => by
      rw [Value.typeOf]
      rw [Value.shared] at hshared
      refine (Agreed.store h (.openCopy sig p)).bind h (Keeps.openCopy hconf sig p)
        fun o _ _ h' hconf' _ ⟨hty, hfixed⟩ => ?_
      refine (typesOf_agreed p (v :: vs) h' hconf' hshared).bind h'
        (typesOf_keeps p (v :: vs) hconf' hshared) fun ts _ _ h'' hconf'' hext hts => ?_
      refine applyTo_agreed h'' hconf'' (hty.mono hext.size_le) (fun f hf => ?_) p name
        fun t ht => (hts t ht).covers
      exact ⟨(hfixed f hf).1, Nat.lt_of_lt_of_le (hfixed f hf).2 hext.size_le⟩
  | .foreign object, _, _, h, _, _ => by
      rw [Value.typeOf]
      exact .store h (.foreign object p)

theorem typesOf_agreed (p : SupplyId) : ∀ (vs : List Value) {σ₁ σ₂ : Session},
    σ₁.store.Level σ₂.store → s.Confined fixed σ₁.store →
    s.Admits fixed (Value.sharedAll vs) → Agreed (Value.typesOf p vs) σ₁ σ₂
  | [], _, _, h, _, _ => by
      rw [Value.typesOf]
      exact .pure h _
  | v :: vs, _, _, h, hconf, hshared => by
      rw [Value.typesOf]
      rw [Value.sharedAll] at hshared
      refine (typeOf_agreed p v h hconf hshared.append.1).bind h
        (typeOf_keeps p v hconf hshared.append.1) fun t _ _ h' hconf' _ _ => ?_
      exact (typesOf_agreed p vs h' hconf' hshared.append.2).map _

theorem agreeWith_agreed (p : SupplyId) {elem : Ty} : ∀ (vs : List Value) {σ₁ σ₂ : Session},
    σ₁.store.Level σ₂.store → s.Confined fixed σ₁.store →
    s.Admits fixed (Value.sharedAll vs) → s.Owns fixed σ₁.store elem →
    Agreed (Value.agreeWith p elem vs) σ₁ σ₂
  | [], _, _, h, _, _, _ => by
      rw [Value.agreeWith]
      exact .pure h _
  | v :: vs, _, _, h, hconf, hshared, helem => by
      rw [Value.agreeWith]
      rw [Value.sharedAll] at hshared
      refine (typeOf_agreed p v h hconf hshared.append.1).bind h
        (typeOf_keeps p v hconf hshared.append.1) fun t _ _ h' hconf' hext ht => ?_
      have helem' := helem.extend hext
      refine (unify_agreed h' helem'.covers ht.covers).bind h' (Keeps.unify hconf' helem' ht)
        fun _ _ _ h'' hconf'' hext' _ => ?_
      exact agreeWith_agreed p vs h'' hconf'' hshared.append.2 (helem'.extend hext')

theorem fitFields_agreed (p : SupplyId) :
    ∀ (templates : List Ty) (vs : List Value) {σ₁ σ₂ : Session} {m : Renaming},
      σ₁.store.Level σ₂.store → s.Confined fixed σ₁.store →
      s.Admits fixed (Value.sharedAll vs) → m.Between s.size σ₁.store.size →
      Agreed (Value.fitFields p m templates vs) σ₁ σ₂
  | [], vs, _, _, m, h, _, _, _ => by
      simp only [Value.fitFields]
      exact .pure h _
  | template :: templates, [], _, _, m, h, _, _, _ => by
      simp only [Value.fitFields]
      exact .pure h _
  | template :: templates, v :: vs, _, _, m, h, hconf, hshared, hm => by
      rw [Value.fitFields]
      rw [Value.sharedAll] at hshared
      refine (Agreed.store h (.copyWith template p m)).bind h (Keeps.copyWith hconf template p hm)
        fun ⟨expected, m'⟩ _ _ h₁ hconf₁ _ ⟨hexpected, hm'⟩ => ?_
      refine (typeOf_agreed p v h₁ hconf₁ hshared.append.1).bind h₁
        (typeOf_keeps p v hconf₁ hshared.append.1) fun t _ _ h₂ hconf₂ hext₂ ht => ?_
      have hexpected₂ := hexpected.extend hext₂
      refine (unify_agreed h₂ hexpected₂.covers ht.covers).bind h₂
        (Keeps.unify hconf₂ hexpected₂ ht) fun _ _ _ h₃ hconf₃ hext₃ _ => ?_
      refine fitFields_agreed p templates vs h₃ hconf₃ hshared.append.2 fun u w hw => ?_
      exact ⟨(hm' u w hw).1, Nat.lt_of_lt_of_le (hm' u w hw).2 (hext₂.trans hext₃).size_le⟩

end

end

/-! ## Sessions that differ in what was reported -/

/-- The stores are the same but for the names handed out and for how far links have been
shortened. -/
structure Store.Agrees (s₁ s₂ : Store) : Prop where
  ledger_eq : s₁.ledger = s₂.ledger
  isBound_eq : ∀ v, s₁.isBound v = s₂.isBound v
  resolve_eq : ∀ t, s₁.resolve t = s₂.resolve t

structure Session.Agrees (σ₁ σ₂ : Session) : Prop where
  store : σ₁.store.Agrees σ₂.store
  declared_eq : σ₁.declared = σ₂.declared

/-- Reports have been added, and no setting has changed. -/
def Trace.Continues (T T' : Trace) : Prop := ∃ es, T' = { T with events := T.events ++ es }

/-- Whatever the trace, the computation ends with the same value or, texts aside, with the same
error, and leaves the session the same but for names, the lengths of chains and reports. -/
def Indifferent (x : Infer α) (σ : Session) : Prop :=
  ∀ T₁ T₂ : Trace, ∃ σ₁ σ₂ : Session,
    (σ₁.Agrees σ₂ ∧ T₁.Continues σ₁.trace ∧ T₂.Continues σ₂.trace)
      ∧ ((∃ a, x { σ with trace := T₁ } = .ok a σ₁ ∧ x { σ with trace := T₂ } = .ok a σ₂)
        ∨ ∃ e₁ e₂, x { σ with trace := T₁ } = .error e₁ σ₁ ∧ x { σ with trace := T₂ } = .error e₂ σ₂
          ∧ e₁.Like e₂)

theorem Store.Level.agrees {p : SupplyId} {σ σ₁ σ₂ : Session} {T₁ T₂ : Trace}
    (h : σ₁.store.Level σ₂.store) (h₁ : Session.Steps p { σ with trace := T₁ } σ₁)
    (h₂ : Session.Steps p { σ with trace := T₂ } σ₂) :
    σ₁.Agrees σ₂ ∧ T₁.Continues σ₁.trace ∧ T₂.Continues σ₂.trace where
  left := {
    store := ⟨h₁.store.ledger_eq h₂.store h.size_eq, h.isBound_eq, h.resolve_eq⟩
    declared_eq := h₁.declared.trans h₂.declared.symm }
  right := ⟨h₁.trace, h₂.trace⟩

theorem Indifferent.of_agreed {p : SupplyId} {x : Infer α} {σ : Session}
    (hσ : σ.store.WellFormed) (hbuilt : Infer.Built p x)
    (hx : ∀ T₁ T₂ : Trace, Agreed x { σ with trace := T₁ } { σ with trace := T₂ }) :
    Indifferent x σ := by
  intro T₁ T₂
  have hlevel := Store.Level.refl hσ
  cases hx T₁ T₂ with
  | @ok a b σ₁ σ₂ h₁ h₂ hadv hab =>
      refine ⟨σ₁, σ₂, ?_, .inl ⟨a, h₁, hab ▸ h₂⟩⟩
      exact (hlevel.advance hadv).agrees ((hbuilt.steps _).of_ok h₁) ((hbuilt.steps _).of_ok h₂)
  | @error e₁ e₂ σ₁ σ₂ h₁ h₂ hadv hlike =>
      refine ⟨σ₁, σ₂, ?_, .inr ⟨e₁, e₂, h₁, h₂, hlike⟩⟩
      exact (hlevel.advance hadv).agrees ((hbuilt.steps _).of_error h₁)
        ((hbuilt.steps _).of_error h₂)

/-- Unification, analysis and the typing of values do not depend on the trace: not on its switches,
forced, of an engine or of the environment, and not on what was reported before. A value shares
variables with the store only through foreign objects inside it. -/
theorem tracing_changes_nothing {σ : Session} (hσ : σ.store.WellFormed) :
    (∀ l r, σ.store.Covers l → σ.store.Covers r → Indifferent (unify l r) σ)
      ∧ (∀ (e : Expr) p Γ fixed, σ.store.Scopes Γ fixed → Indifferent (e.analyze p Γ fixed) σ)
      ∧ ∀ (v : Value) p, (∀ w ∈ v.shared, w.index < σ.store.size) →
          Indifferent (v.typeOf p) σ := by
  have hlevel (T₁ T₂ : Trace) : Store.Level ({ σ with trace := T₁ } : Session).store
      ({ σ with trace := T₂ } : Session).store := .refl hσ
  refine ⟨fun l r hl hr => ?_, fun e p Γ fixed hΓ => ?_, fun v p hv => ?_⟩
  · exact .of_agreed hσ (.unify (p := 0) l r) fun T₁ T₂ => unify_agreed (hlevel T₁ T₂) hl hr
  · exact .of_agreed hσ (.analyze Γ fixed e) fun T₁ T₂ => analyze_agreed e (hlevel T₁ T₂) hΓ
  · have hadmits : σ.store.Admits v.shared v.shared := fun w hw => ⟨hw, hv w hw⟩
    exact .of_agreed hσ (.typeOf v) fun T₁ T₂ =>
      typeOf_agreed p v (hlevel T₁ T₂) (.refl hσ _) hadmits

/-- `#1 -> Int` and `#2 -> Bool` clash, silently or with three reports, for which both variables
are named. -/
theorem tracing_changes_nothing_sample :
    let x := unify (.fn (.var ⟨1⟩) (.nullary .int)) (.fn (.var ⟨2⟩) (.nullary .bool))
    let silent : Session := { store := Store.sample }
    let traced : Session := { silent with trace := { forced := some .all } }
    Store.sample.WellFormed
      ∧ ∃ e₁ e₂ σ₁ σ₂, x silent = .error e₁ σ₁ ∧ x traced = .error e₂ σ₂
        ∧ σ₁.trace.events.size = 0 ∧ σ₂.trace.events.size = 3 ∧ e₁.Like e₂ ∧ σ₁.Agrees σ₂ := by
  intro x silent traced
  obtain ⟨e₁, σ₁, hsilent, hnone⟩ : Fails (x silent) fun _ σ' => σ'.trace.events.size = 0 := by
    decide +kernel
  obtain ⟨e₂, σ₂, htraced, hthree⟩ : Fails (x traced) fun _ σ' => σ'.trace.events.size = 3 := by
    decide +kernel
  obtain ⟨σ₁', σ₂', ⟨hagrees, -⟩, ⟨a, h₁, -⟩ | ⟨e₁', e₂', h₁, h₂, hlike⟩⟩ :=
    (tracing_changes_nothing (σ := silent) Store.sample_wellFormed).1 _ _
      (Store.sample_covers_fn 1 .int (by decide)) (Store.sample_covers_fn 2 .bool (by decide))
      silent.trace traced.trace
  · cases hsilent.symm.trans h₁
  · cases hsilent.symm.trans h₁
    cases htraced.symm.trans h₂
    exact ⟨Store.sample_wellFormed, e₁, e₂, σ₁, σ₂, h₁, h₂, hnone, hthree, hlike, hagrees⟩

end Overload
