import Overload.Proofs.ValueSoundness

/-!
# Types of values are principal

A value that has a type is never rejected, and its types are exactly the instances of the one that
inference returns (`typeOf_principal`). As for expressions, one solution `θ` of the store is carried
along and chosen on new variables as the derivation demands. Where fields are fitted to declared
types, what is carried along is that the replacements made so far have the values of the instance
`ψ` that the derivation uses.

`Principal` says of any inference which types it stands for. Two inferences that stand for the same
types are interchangeable, whatever they do to the store on the way.
-/

namespace Overload

/-! ## Principal results -/

/-- The types in `P` are the instances of what comes out; the inference fails if there are none. -/
def Principal (x : Infer Ty) (σ : Session) (P : Ty → Prop) : Prop :=
  Ends x σ (fun t σ' => ∀ u, P u ↔ ∃ ρ : Subst, (σ'.store.resolve t).subst ρ = u)
    fun err _ => err ≠ .cyclic ∧ ∀ u, ¬P u

namespace Principal

variable {x : Infer Ty} {σ : Session} {P : Ty → Prop}

/-- Sound and complete over all solutions is principal. -/
theorem of_sound_of_complete (hs : σ.store.WellFormed)
    (hsound : Ends x σ
      (fun t σ' => (∀ θ, σ'.store.SolvedBy θ → P (t.subst θ)) ∧ σ'.store.WellFormed)
      fun err _ => err ≠ .cyclic)
    (hcomplete : ∀ θ u, σ.store.SolvedBy θ → P u → Realizes x σ θ u) : Principal x σ P := by
  have hθ := Store.solvedBy_resolve hs.acyclic
  rw [Principal, Ends]
  cases hx : x σ with
  | ok t σ' =>
      obtain ⟨hsound, hwf⟩ := hsound.of_ok hx
      refine fun u => ⟨fun hu => ?_, ?_⟩
      · obtain ⟨θ', hθ', -, ht⟩ := Ends.of_ok (hcomplete _ u hθ hu) hx
        exact ⟨θ', (hθ'.subst_resolve t).trans ht⟩
      · rintro ⟨ρ, rfl⟩
        rw [← Store.subst_resolve_comp]
        exact hsound _ (Store.solvedBy_resolve_comp hwf.acyclic ρ)
  | error err σ' =>
      exact ⟨hsound.of_error hx, fun u hu => Ends.of_error (hcomplete _ u hθ hu) hx⟩

theorem exists_ok_iff (h : Principal x σ P) : (∃ t σ', x σ = .ok t σ') ↔ ∃ u, P u := by
  constructor
  · rintro ⟨t, σ', hx⟩
    exact ⟨_, (Ends.of_ok h hx _).mpr ⟨.var, Ty.subst_id _⟩⟩
  · rintro ⟨u, hu⟩
    cases hx : x σ with
    | ok t σ' => exact ⟨t, σ', rfl⟩
    | error err σ' => exact absurd hu ((Ends.of_error h hx).2 u)

end Principal

/-! ## Applications -/

/-- An application succeeds if an instance of the signature takes the types of the arguments, once
the arguments are typed completely. -/
theorem Signature.applyTo_complete {s : Store} (hs : s.WellFormed) {sig : Signature} {p : SupplyId}
    {name : String} {args : List Value} {σ : Session} (h : s.Confined [] σ.store)
    (hsig : s.Covers sig.toTy) (hargs : ∀ v ∈ args, v.Plain s)
    (htypes : ∀ (σ₁ : Session) (θ : Subst) (us : List Ty), s.Confined [] σ₁.store →
      σ₁.store.SolvedBy θ → List.Forall₂ (Inhabits s) args us →
      Ends (Value.typesOf p args) σ₁ (fun ts σ' => ∃ θ', σ'.store.SolvedBy θ'
        ∧ σ₁.store.SameOn θ' θ ∧ ts.map (Ty.subst θ') = us) fun _ _ => False)
    {θ : Subst} (hθ : σ.store.SolvedBy θ) {u : Ty} (hu : sig.Leaves s args u) :
    Ends (sig.applyTo p name args) σ (fun r σ' => ∃ θ', σ'.store.SolvedBy θ'
      ∧ σ.store.SameOn θ' θ ∧ r.2.subst θ' = u) fun _ _ => False := by
  rw [Signature.applyTo]
  refine Ends.lift_bind ?_
  obtain ⟨hcopied, hready⟩ := Store.copied_openCopy h.wellFormed sig p
  obtain ⟨ψ, us, hus, heq⟩ := hu
  obtain ⟨θ₁, hθ₁, hold₁, hc₁⟩ := hcopied.realize h.wellFormed (Renaming.between_nil 0 _) hθ
    (Renaming.carries_nil ψ θ)
  have hty := (hcopied.value hc₁).trans ((congrArg (Ty.subst ψ) (h.resolve_eq hs hsig)).trans heq)
  have h₁ := h.alike hcopied.alike
  refine Ends.bind ((htypes { σ with store := (sig.openCopy p σ.store).2 } _ _ h₁ hθ₁ hus).and
    (typesOf_keeps p args h₁ (Value.Plain.admitsAll hargs s []))) ?_
  rintro ts σ₂ ⟨⟨θ₂, hθ₂, hold₂, rfl⟩, ⟨h₂, hext₂⟩, hown⟩
  have htakes : List.Forall₂ (σ₂.store.Takes (sig.openCopy p σ.store).1.fixed θ₂) ts
      (ts.map (Ty.subst θ₂)) :=
    List.forall₂_map_right_iff.mpr
      (List.forall₂_same.mpr fun t _ => ⟨θ₂, hθ₂, fun _ _ => rfl, rfl⟩)
  rw [← hold₂.subst_eq hready.covers] at hty
  refine Ends.bind (applyTo_realizes h₂.wellFormed (hready.mono hext₂.size_le)
    (fun t ht => (hown t ht).covers) hθ₂ htakes hty) ?_
  rintro ret σ₃ ⟨θ₃, hθ₃, hold₃, hret⟩
  have hold := (hold₃.trans hext₂.size_le hold₂).trans hcopied.alike.size_le hold₁
  exact Ends.pure ⟨θ₃, hθ₃, hold, hret⟩

/-- A function of unknown type takes any arguments, as many as it misses. -/
theorem unknownFunction_realizes {σ : Session} {θ : Subst} (hs : σ.store.WellFormed)
    (hθ : σ.store.SolvedBy θ) (p : SupplyId) {arity : Nat} {ts : List Ty} (hlen : ts.length = arity)
    (t : Ty) : Realizes (liftM (Ty.unknownFunction p arity)) σ θ (.chain ts t) := by
  obtain ⟨θ₁, hθ₁, hold₁, hts⟩ := mapM_freshTy_realize p (List.replicate arity ()) hs hθ
    (hlen.trans List.length_replicate.symm)
  obtain ⟨halike, hbetween⟩ := Store.mapM_freshTy_between p (List.replicate arity ()) hs
    (Nat.zero_le _)
  obtain ⟨θ₂, hθ₂, hold₂, ht⟩ := hθ₁.fresh halike.wellFormed p t
  refine Ends.lift ⟨θ₂, hθ₂, hold₂.trans halike.size_le hold₁, ?_⟩
  refine (Ty.subst_chain θ₂ _ _).trans (congrArg₂ Ty.chain ?_ ((Ty.subst_var ..).trans ht))
  rw [← hts]
  exact List.map_congr_left fun u hu => hold₂.subst_eq fun w hw => (hbetween u hu w hw).2

/-! ## Values -/

mutual

/-- By induction on the value, against a derivation that it has the type `u`. What is carried along
is a solution of the present store, which each part extends to its new variables so that the
inferred type has the value that the derivation gives to the part. A unification that the solution
satisfies succeeds and keeps it. -/
theorem typeOf_complete {s : Store} (hs : s.WellFormed) (p : SupplyId) :
    ∀ (v : Value) {σ : Session} {θ : Subst} {u : Ty}, s.Confined [] σ.store → v.Plain s →
      σ.store.SolvedBy θ → Inhabits s v u → Realizes (v.typeOf p) σ θ u
  | .unit, σ, θ, u, _, _, hθ, hu | .bool _, σ, θ, u, _, _, hθ, hu | .int _, σ, θ, u, _, _, hθ, hu
  | .float _, σ, θ, u, _, _, hθ, hu | .text _, σ, θ, u, _, _, hθ, hu => by
      rw [Value.typeOf]
      cases hu
      exact Ends.pure ⟨θ, hθ, fun _ _ => rfl, Ty.subst_nullary ..⟩
  | .list [], σ, θ, u, h, _, hθ, hu => by
      rw [Value.typeOf]
      cases hu with
      | @list _ t _ =>
          obtain ⟨θ₁, hθ₁, hold₁, ht⟩ := hθ.fresh h.wellFormed p t
          refine Ends.lift_bind (Ends.pure ⟨θ₁, hθ₁, hold₁, ?_⟩)
          exact (Ty.subst_list ..).trans (congrArg Ty.list ((Ty.subst_var ..).trans ht))
  | .list (v :: vs), σ, θ, u, h, hv, hθ, hu => by
      rw [Value.typeOf]
      obtain ⟨hhead, htail⟩ := List.forall_mem_cons.mp hv.list
      cases hu with
      | list hitems =>
          obtain ⟨hitem, hitems⟩ := List.forall_mem_cons.mp hitems
          refine Ends.bind (Ends.and (typeOf_complete hs p v h hhead hθ hitem)
            (typeOf_keeps p v h (hhead.admits s []))) ?_
          rintro elem σ₁ ⟨⟨θ₁, hθ₁, hold₁, rfl⟩, ⟨h₁, hext₁⟩, hown⟩
          refine Ends.bind (agreeWith_complete hs p vs h₁ htail hown hθ₁ hitems) ?_
          rintro _ σ₂ ⟨θ₂, hθ₂, hold₂⟩
          refine Ends.pure ⟨θ₂, hθ₂, hold₂.trans hext₁.size_le hold₁, ?_⟩
          rw [Ty.subst_list, hold₂.subst_eq hown.covers]
  | .tuple items, σ, θ, u, h, hv, hθ, hu => by
      rw [Value.typeOf]
      obtain ⟨ts, rfl, hitems⟩ := inhabits_tuple.mp hu
      refine Ends.bind (typesOf_complete hs p items h hv.tuple hθ hitems) ?_
      rintro us σ₁ ⟨θ₁, hθ₁, hold₁, rfl⟩
      exact Ends.pure ⟨θ₁, hθ₁, hold₁, Ty.subst_tuple ..⟩
  | .data type variant fields, σ, θ, u, h, hv, hθ, hu => by
      rw [Value.typeOf]
      cases hu with
      | data ψ hfields =>
          refine Ends.lift_bind ?_
          have hcopied := Store.copied_copyAll h.wellFormed type.con (type.params.map .var) p []
          obtain ⟨θ₁, hθ₁, hold₁, hc₁⟩ := hcopied.realize h.wellFormed (Renaming.between_nil 0 _) hθ
            (Renaming.carries_nil ψ θ)
          have h₁ := h.alike hcopied.alike
          have hm := hcopied.grows.between (Renaming.between_nil s.size _) h.size_le
          refine Ends.bind (fitFields_complete hs p (type.variants.get variant).fields fields
            (σ := { σ with store := _ }) h₁ hv.inScope.templates hv.fields hm hθ₁ hc₁ hfields) ?_
          rintro _ σ₂ ⟨θ₂, hθ₂, hold₂⟩
          refine Ends.pure ⟨θ₂, hθ₂, hold₂.trans hcopied.alike.size_le hold₁, ?_⟩
          have hparams := List.map_congr_left (l := type.params) fun v hmem =>
            congrArg (Ty.subst ψ) (h.resolve_eq hs (hv.inScope.params v hmem))
          have heq := hcopied.value (hc₁.sameOn hm hold₂)
          rw [Store.resolve_con, Ty.subst_con ψ, List.map_map, List.map_map] at heq
          exact heq.trans (congrArg (Ty.con type.con) hparams)
  | .builtin _ arity _ args, σ, θ, u, h, _, hθ, hu => by
      rw [Value.typeOf]
      cases hu with
      | builtin hlen => exact unknownFunction_realizes h.wellFormed hθ p hlen _
  | .method ref args, σ, θ, u, h, _, hθ, hu => by
      rw [Value.typeOf]
      cases hu with
      | method hlen => exact unknownFunction_realizes h.wellFormed hθ p hlen _
  | .typed _ sig _ [], σ, θ, u, h, hv, hθ, hu => by
      rw [Value.typeOf]
      obtain ⟨ψ, ts, hts, heq⟩ := inhabits_typed.mp hu
      cases hts
      have hcopied := Store.copied_copyWith h.wellFormed sig.toTy p []
      obtain ⟨θ₁, hθ₁, hold₁, hc₁⟩ := hcopied.realize h.wellFormed (Renaming.between_nil 0 _) hθ
        (Renaming.carries_nil ψ θ)
      refine Ends.lift ⟨θ₁, hθ₁, hold₁, (hcopied.value hc₁).trans ?_⟩
      rw [h.resolve_eq hs (Signature.covers_toTy hv.inScope.signature)]
      exact heq
  | .typed name sig _ (v :: vs), σ, θ, u, h, hv, hθ, hu => by
      rw [typeOf_typed_cons]
      refine Ends.bind (Signature.applyTo_complete hs h
        (Signature.covers_toTy hv.inScope.signature) hv.args
        (fun _ _ _ h₁ hθ₁ hus => typesOf_complete hs p (v :: vs) h₁ hv.args hθ₁ hus) hθ
        (inhabits_typed.mp hu)) fun r σ₁ hr => ?_
      exact Ends.pure hr
  | .foreign _, σ, θ, u, _, hv, _, _ => absurd hv.native (by simp [Value.Native])

theorem typesOf_complete {s : Store} (hs : s.WellFormed) (p : SupplyId) :
    ∀ (vs : List Value) {σ : Session} {θ : Subst} {us : List Ty}, s.Confined [] σ.store →
      (∀ v ∈ vs, v.Plain s) → σ.store.SolvedBy θ → List.Forall₂ (Inhabits s) vs us →
      Ends (Value.typesOf p vs) σ (fun ts σ' => ∃ θ', σ'.store.SolvedBy θ'
        ∧ σ.store.SameOn θ' θ ∧ ts.map (Ty.subst θ') = us) fun _ _ => False
  | [], σ, θ, us, _, _, hθ, hus => by
      rw [Value.typesOf]
      cases hus
      exact Ends.pure ⟨θ, hθ, fun _ _ => rfl, rfl⟩
  | v :: vs, σ, θ, us, h, hvs, hθ, hus => by
      rw [Value.typesOf]
      obtain ⟨hv, hvs⟩ := List.forall_mem_cons.mp hvs
      cases hus with
      | cons hu hus =>
          refine Ends.bind (Ends.and (typeOf_complete hs p v h hv hθ hu)
            (typeOf_keeps p v h (hv.admits s []))) ?_
          rintro t σ₁ ⟨⟨θ₁, hθ₁, hold₁, rfl⟩, ⟨h₁, hext₁⟩, hown⟩
          refine Ends.bind (typesOf_complete hs p vs h₁ hvs hθ₁ hus) ?_
          rintro ts σ₂ ⟨θ₂, hθ₂, hold₂, rfl⟩
          refine Ends.pure ⟨θ₂, hθ₂, hold₂.trans hext₁.size_le hold₁, ?_⟩
          rw [List.map_cons, hold₂.subst_eq hown.covers]

theorem agreeWith_complete {s : Store} (hs : s.WellFormed) (p : SupplyId) {elem : Ty} :
    ∀ (vs : List Value) {σ : Session} {θ : Subst}, s.Confined [] σ.store →
      (∀ v ∈ vs, v.Plain s) → s.Owns [] σ.store elem → σ.store.SolvedBy θ →
      (∀ v ∈ vs, Inhabits s v (elem.subst θ)) →
      Ends (Value.agreeWith p elem vs) σ (fun _ σ' => ∃ θ', σ'.store.SolvedBy θ'
        ∧ σ.store.SameOn θ' θ) fun _ _ => False
  | [], σ, θ, _, _, _, hθ, _ => by
      rw [Value.agreeWith]
      exact Ends.pure ⟨θ, hθ, fun _ _ => rfl⟩
  | v :: vs, σ, θ, h, hvs, helem, hθ, hitems => by
      rw [Value.agreeWith]
      obtain ⟨hv, hvs⟩ := List.forall_mem_cons.mp hvs
      obtain ⟨hitem, hitems⟩ := List.forall_mem_cons.mp hitems
      refine Ends.bind (Ends.and (typeOf_complete hs p v h hv hθ hitem)
        (typeOf_keeps p v h (hv.admits s []))) ?_
      rintro t σ₁ ⟨⟨θ₁, hθ₁, hold₁, ht⟩, ⟨h₁, hext₁⟩, hown⟩
      have helem₁ := helem.extend hext₁
      rw [← hold₁.subst_eq helem.covers] at ht hitems
      refine Ends.bind (unify_realizes h₁.wellFormed helem₁.covers hown.covers hθ₁ ht.symm) ?_
      rintro _ σ₂ ⟨hadds, hθ₂⟩
      refine Ends.mono (agreeWith_complete hs p vs (h₁.adds helem₁.stable hown.stable hadds) hvs
        (helem₁.extend hadds.toExtends) hθ₂ hitems) ?_ fun _ _ h => h
      rintro _ σ₃ ⟨θ₃, hθ₃, hold₃⟩
      exact ⟨θ₃, hθ₃, hold₃.trans (hext₁.trans hadds.toExtends).size_le hold₁⟩

theorem fitFields_complete {s : Store} (hs : s.WellFormed) (p : SupplyId) :
    ∀ (templates : List Ty) (vs : List Value) {σ : Session} {m : Renaming} {ψ θ : Subst},
      s.Confined [] σ.store → (∀ t ∈ templates, s.Covers t) → (∀ v ∈ vs, v.Plain s) →
      m.Between s.size σ.store.size → σ.store.SolvedBy θ → m.Carries ψ θ →
      (∀ q ∈ vs.zip templates, Inhabits s q.1 ((s.resolve q.2).subst ψ)) →
      Ends (Value.fitFields p m templates vs) σ (fun _ σ' => ∃ θ', σ'.store.SolvedBy θ'
        ∧ σ.store.SameOn θ' θ) fun _ _ => False
  | [], vs, σ, m, ψ, θ, _, _, _, _, hθ, _, _ => by
      simp only [Value.fitFields]
      exact Ends.pure ⟨θ, hθ, fun _ _ => rfl⟩
  | _ :: _, [], σ, m, ψ, θ, _, _, _, _, hθ, _, _ => by
      simp only [Value.fitFields]
      exact Ends.pure ⟨θ, hθ, fun _ _ => rfl⟩
  | template :: templates, v :: vs, σ, m, ψ, θ, h, htemplates, hvs, hm, hθ, hc, hfields => by
      rw [Value.fitFields]
      obtain ⟨htemplate, htemplates⟩ := List.forall_mem_cons.mp htemplates
      obtain ⟨hv, hvs⟩ := List.forall_mem_cons.mp hvs
      rw [List.zip_cons_cons] at hfields
      obtain ⟨hfield, hfields⟩ := List.forall_mem_cons.mp hfields
      refine Ends.bind ((copied_ends h.wellFormed template p m).and
        (Keeps.copyWith h template p hm)) ?_
      rintro ⟨expected, m'⟩ σ₁ ⟨hcopied, ⟨h₁, hext₁⟩, hexpected, hm'⟩
      obtain ⟨θ₁, hθ₁, hold₁, hc₁⟩ := hcopied.realize h.wellFormed hm hθ hc
      refine Ends.bind (Ends.and (typeOf_complete hs p v h₁ hv hθ₁ hfield)
        (typeOf_keeps p v h₁ (hv.admits s []))) ?_
      rintro t σ₂ ⟨⟨θ₂, hθ₂, hold₂, ht⟩, ⟨h₂, hext₂⟩, hown⟩
      have hexpected₂ := hexpected.extend hext₂
      have hc₂ := hc₁.sameOn hm' hold₂
      have heq : expected.subst θ₂ = t.subst θ₂ := by
        rw [hcopied.value hc₂, ht, h.resolve_eq hs htemplate]
      refine Ends.bind (unify_realizes h₂.wellFormed hexpected₂.covers hown.covers hθ₂ heq) ?_
      rintro _ σ₃ ⟨hadds, hθ₃⟩
      have hext₃ := hext₂.trans hadds.toExtends
      have hm₃ : Renaming.Between s.size σ₃.store.size m' := fun u w hw =>
        ⟨(hm' u w hw).1, Nat.lt_of_lt_of_le (hm' u w hw).2 hext₃.size_le⟩
      refine Ends.mono (fitFields_complete hs p templates vs
        (h₂.adds hexpected₂.stable hown.stable hadds) htemplates hvs hm₃ hθ₃ hc₂ hfields) ?_
        fun _ _ h => h
      rintro _ σ₄ ⟨θ₄, hθ₄, hold₄⟩
      exact ⟨θ₄, hθ₄, (hold₄.trans hext₃.size_le hold₂).trans hext₁.size_le hold₁⟩

end

theorem principal_typeOf {v : Value} {p : SupplyId} {σ : Session} (hs : σ.store.WellFormed)
    (hv : v.Plain σ.store) : Principal (v.typeOf p) σ (Inhabits σ.store v) := by
  have hrefl := Store.Confined.refl hs []
  refine .of_sound_of_complete hs ?_ fun θ u hθ hu => typeOf_complete hs p v hrefl hv hθ hu
  refine Ends.mono ((typeOf_sound hs p v hrefl hv).and
    (typeOf_keeps p v hrefl (hv.admits σ.store []))) ?_ fun _ _ h => h
  exact fun _ _ h => ⟨h.1, h.2.1.1.wellFormed⟩

/-- Inference succeeds exactly where the value has a type, and then the types that the value has are
the instances of the one that comes out, resolved in the final store. -/
theorem typeOf_principal {v : Value} {p : SupplyId} {σ : Session} (hs : σ.store.WellFormed)
    (hv : v.Plain σ.store) :
    ((∃ t σ', v.typeOf p σ = .ok t σ') ↔ ∃ u, Inhabits σ.store v u)
      ∧ ∀ t σ', v.typeOf p σ = .ok t σ' →
          ∀ u, Inhabits σ.store v u ↔ ∃ ρ : Subst, (σ'.store.resolve t).subst ρ = u :=
  ⟨(principal_typeOf hs hv).exists_ok_iff, fun _ _ h => Ends.of_ok (principal_typeOf hs hv) h⟩

/-- Under `#0 := List #1`, a function of type `#0 -> #2 -> #1` that holds a list of integers takes
anything to an integer. -/
theorem typeOf_principal_partial :
    let sig : Signature := { params := [.var ⟨0⟩, .var ⟨2⟩], ret := .var ⟨1⟩ }
    let v := Value.typed "first" sig (.host 0) [.list [.int 1]]
    Store.sample.WellFormed ∧ v.Plain Store.sample
      ∧ Inhabits Store.sample v (.fn (.nullary .bool) (.nullary .int))
      ∧ ∃ t σ', v.typeOf 0 { store := Store.sample } = .ok t σ'
        ∧ ∀ u, Inhabits Store.sample v u ↔ ∃ ρ : Subst, (σ'.store.resolve t).subst ρ = u := by
  intro sig v
  have hv : v.Plain Store.sample := by
    refine ⟨?_, by simp [v, Value.Native, Value.NativeAll]⟩
    change ∀ w ∈ v.vars, w.index < Store.sample.size
    decide
  have hinhabits : Inhabits Store.sample v (.fn (.nullary .bool) (.nullary .int)) := by
    let ψ : Subst := fun w => if w = ⟨1⟩ then .nullary .int else .nullary .bool
    refine inhabits_typed.mpr ⟨ψ, [.list (.nullary .int)], .cons (.list ?_) .nil, by decide⟩
    rintro w hw
    obtain rfl := List.mem_singleton.mp hw
    exact .int
  obtain ⟨hiff, hinst⟩ :=
    typeOf_principal (p := 0) (σ := { store := Store.sample }) Store.sample_wellFormed hv
  obtain ⟨t, σ', hok⟩ := hiff.mpr ⟨_, hinhabits⟩
  exact ⟨Store.sample_wellFormed, hv, hinhabits, t, σ', hok, hinst t σ' hok⟩

end Overload
