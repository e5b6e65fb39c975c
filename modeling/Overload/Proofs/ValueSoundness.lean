import Overload.Proofs.Instances
import Overload.Proofs.Untouched
import Overload.Proofs.ValueTyping

/-!
# Types of values are sound

Whatever type inference gives to a value, the value has it by the rules (`typeOf_sound`), under
every solution of the store that inference ends with. The store `s` that the rules read is one from
before: the types that a value carries resolve in `s` as they do in any store that inference leads
to, since inference is confined to variables of its own.

The induction follows the value, with one statement for each loop: items that have to agree with a
type, fields that have to fit one instance of their declared types, and arguments that are typed on
their own before they are fitted to a signature.
-/

namespace Overload

/-- Each argument is typed with all its values, and takes one of them. -/
theorem inhabits_of_takes {s s' : Store} {fixed : List Var} {θ : Subst} {vs : List Value}
    {ts us : List Ty}
    (hts : List.Forall₂ (fun v t => ∀ φ, s'.SolvedBy φ → Inhabits s v (t.subst φ)) vs ts)
    (hus : List.Forall₂ (s'.Takes fixed θ) ts us) : List.Forall₂ (Inhabits s) vs us := by
  induction hts generalizing us with
  | nil =>
      cases hus
      exact .nil
  | cons hv _ ih =>
      cases hus with
      | cons hu hus =>
          obtain ⟨φ, hφ, -, rfl⟩ := hu
          exact .cons (hv φ hφ) (ih hus)

theorem Signature.applyTo_keeps {s : Store} {fixed : List Var} {sig : Signature} {p : SupplyId}
    {name : String} {args : List Value} {σ : Session} (h : s.Confined fixed σ.store)
    (hargs : s.Admits fixed (Value.sharedAll args)) :
    Keeps (sig.applyTo p name args) s fixed σ fun r s' => s.Owns fixed s' r.2 := by
  rw [Signature.applyTo]
  refine (Keeps.openCopy h sig p).bind ?_
  rintro o σ₁ h₁ - ⟨hty, hfixed⟩
  refine (typesOf_keeps p args h₁ hargs).bind fun ts σ₂ h₂ hext₂ hts => ?_
  refine (Keeps.applyTo h₂ (hty.mono hext₂.size_le) (fun f hf => ?_) p name fun t ht =>
    (hts t ht).covers).bind fun ret σ₃ h₃ _ hret => .pure h₃ hret
  exact ⟨(hfixed f hf).1, Nat.lt_of_lt_of_le (hfixed f hf).2 hext₂.size_le⟩

/-- An application leaves a type that an instance of the signature leaves, once the arguments are
soundly typed. -/
theorem Signature.applyTo_sound {s : Store} (hs : s.WellFormed) {sig : Signature} {p : SupplyId}
    {name : String} {args : List Value} {σ : Session} (h : s.Confined [] σ.store)
    (hsig : s.Covers sig.toTy) (hargs : ∀ v ∈ args, v.Plain s)
    (htypes : ∀ σ₁ : Session, s.Confined [] σ₁.store → Ends (Value.typesOf p args) σ₁
      (fun ts σ' => List.Forall₂ (fun v t => ∀ θ, σ'.store.SolvedBy θ → Inhabits s v (t.subst θ))
        args ts) fun err _ => err ≠ .cyclic) :
    Ends (sig.applyTo p name args) σ
      (fun r σ' => ∀ θ, σ'.store.SolvedBy θ → sig.Leaves s args (r.2.subst θ))
      fun err _ => err ≠ .cyclic := by
  rw [Signature.applyTo]
  refine Ends.lift_bind ?_
  obtain ⟨hcopied, hready⟩ := Store.copied_openCopy h.wellFormed sig p
  have h₁ := h.alike hcopied.alike
  refine Ends.bind ((htypes { σ with store := (sig.openCopy p σ.store).2 } h₁).and
    (typesOf_keeps p args h₁ (Value.Plain.admitsAll hargs s []))) ?_
  rintro ts σ₂ ⟨hts, ⟨h₂, hext₂⟩, hown⟩
  refine Ends.bind (applyTo_leaves h₂.wellFormed (hready.mono hext₂.size_le) fun t ht =>
    (hown t ht).covers) fun ret σ₃ hret => Ends.pure fun θ hθ => ?_
  obtain ⟨us, hus, heq⟩ := hret θ hθ
  refine ⟨(sig.openCopy p σ.store).1.copies.valuesIn θ, us, inhabits_of_takes hts hus, ?_⟩
  rw [← h.resolve_eq hs hsig, ← hcopied.value (Renaming.carries_valuesIn _ θ), heq]

theorem copied_ends {σ : Session} (hs : σ.store.WellFormed) (t : Ty) (p : SupplyId) (m : Renaming)
    {E : TypeError → Session → Prop} :
    Ends (liftM (t.copyWith [] p m)) σ (fun r σ' => σ.store.Copied m t σ'.store r.2 r.1) E :=
  Ends.lift (Store.copied_copyWith hs t p m)

theorem typeOf_typed_cons (p : SupplyId) (name : String) (sig : Signature) (code : Code)
    (v : Value) (vs : List Value) :
    (Value.typed name sig code (v :: vs)).typeOf p
      = do return (← sig.applyTo p name (v :: vs)).2 := by
  simp [Value.typeOf, Signature.applyTo]

mutual

/-- By induction on the value, together with the loops over items, fields and arguments. The rules
read the store `s` from before, and so do all parts: the present store is confined, which keeps what
types resolve to in `s`. What a part has under every solution of the store after it, it has under
every solution at the end, as these are solutions there too. -/
theorem typeOf_sound {s : Store} (hs : s.WellFormed) (p : SupplyId) :
    ∀ (v : Value) {σ : Session}, s.Confined [] σ.store → v.Plain s →
      Ends (v.typeOf p) σ (fun t σ' => ∀ θ, σ'.store.SolvedBy θ → Inhabits s v (t.subst θ))
        fun err _ => err ≠ .cyclic
  | .unit, σ, _, _ => by
      rw [Value.typeOf]
      exact Ends.pure fun θ _ => by simpa using .unit
  | .bool _, σ, _, _ => by
      rw [Value.typeOf]
      exact Ends.pure fun θ _ => by simpa using .bool
  | .int _, σ, _, _ => by
      rw [Value.typeOf]
      exact Ends.pure fun θ _ => by simpa using .int
  | .float _, σ, _, _ => by
      rw [Value.typeOf]
      exact Ends.pure fun θ _ => by simpa using .float
  | .text _, σ, _, _ => by
      rw [Value.typeOf]
      exact Ends.pure fun θ _ => by simpa using .text
  | .list [], σ, _, _ => by
      rw [Value.typeOf]
      refine Ends.lift_bind (Ends.pure fun θ _ => ?_)
      rw [Ty.subst_list]
      exact .list fun _ hv => nomatch hv
  | .list (v :: vs), σ, h, hv => by
      rw [Value.typeOf]
      obtain ⟨hhead, htail⟩ := List.forall_mem_cons.mp hv.list
      refine Ends.bind ((typeOf_sound hs p v h hhead).and
        (typeOf_keeps p v h (hhead.admits s []))) ?_
      rintro elem σ₁ ⟨hsound, ⟨h₁, -⟩, hown⟩
      refine Ends.bind ((agreeWith_sound hs p vs h₁ htail hown).and
        (agreeWith_keeps p vs h₁ (Value.Plain.admitsAll htail s []) hown)) ?_
      rintro _ σ₂ ⟨hrest, ⟨-, hext₂⟩, -⟩
      refine Ends.pure fun θ hθ => ?_
      rw [Ty.subst_list]
      exact .list (List.forall_mem_cons.mpr ⟨hsound θ (hext₂.solved θ hθ), hrest θ hθ⟩)
  | .tuple items, σ, h, hv => by
      rw [Value.typeOf]
      refine Ends.bind (typesOf_sound hs p items h hv.tuple) fun ts σ₁ hts =>
        Ends.pure fun θ hθ => ?_
      refine inhabits_tuple.mpr ⟨_, Ty.subst_tuple θ ts, List.forall₂_map_right_iff.mpr ?_⟩
      exact hts.imp fun v t hvt => hvt θ hθ
  | .data type variant fields, σ, h, hv => by
      rw [Value.typeOf]
      refine Ends.lift_bind ?_
      have hcopied := Store.copied_copyAll h.wellFormed type.con (type.params.map .var) p []
      have h₁ := h.alike hcopied.alike
      have hm := hcopied.grows.between (Renaming.between_nil s.size _) h.size_le
      refine Ends.bind (fitFields_sound hs p (type.variants.get variant).fields fields
        (σ := { σ with store := _ }) h₁ hv.inScope.templates hv.fields hm) fun _ σ₂ hfit =>
        Ends.pure fun θ hθ => ?_
      obtain ⟨ψ, hc, hfields⟩ := hfit θ hθ
      have hparams := List.map_congr_left (l := type.params) fun v hmem =>
        congrArg (Ty.subst ψ) (h.resolve_eq hs (hv.inScope.params v hmem))
      have heq := hcopied.value hc
      rw [Store.resolve_con, Ty.subst_con ψ, List.map_map, List.map_map] at heq
      have heq := heq.trans (congrArg (Ty.con type.con) hparams)
      exact (congrArg (Inhabits s _) heq).mpr (.data ψ hfields)
  | .builtin _ arity _ args, σ, _, _ => by
      rw [Value.typeOf]
      refine Ends.lift fun θ _ => ?_
      refine (congrArg (Inhabits s _) (Ty.subst_chain θ _ _)).mpr (.builtin ?_)
      rw [List.length_map]
      exact (length_mapM_freshTy p _ σ.store).trans List.length_replicate
  | .method ref args, σ, _, _ => by
      rw [Value.typeOf]
      refine Ends.lift fun θ _ => ?_
      refine (congrArg (Inhabits s _) (Ty.subst_chain θ _ _)).mpr (.method ?_)
      rw [List.length_map]
      exact (length_mapM_freshTy p _ σ.store).trans List.length_replicate
  | .typed _ sig _ [], σ, h, hv => by
      rw [Value.typeOf]
      have hcopied := Store.copied_copyWith h.wellFormed sig.toTy p []
      refine Ends.lift fun θ _ => ?_
      have heq := hcopied.value (Renaming.carries_valuesIn _ θ)
      rw [h.resolve_eq hs (Signature.covers_toTy hv.inScope.signature)] at heq
      exact inhabits_typed.mpr ⟨_, [], .nil, heq.symm⟩
  | .typed name sig _ (v :: vs), σ, h, hv => by
      rw [typeOf_typed_cons]
      refine Ends.bind (Signature.applyTo_sound hs h (Signature.covers_toTy hv.inScope.signature)
        hv.args fun _ h₁ => typesOf_sound hs p (v :: vs) h₁ hv.args) fun r σ₁ hr => ?_
      exact Ends.pure fun θ hθ => inhabits_typed.mpr (hr θ hθ)
  | .foreign _, σ, _, hv => absurd hv.native (by simp [Value.Native])

theorem typesOf_sound {s : Store} (hs : s.WellFormed) (p : SupplyId) :
    ∀ (vs : List Value) {σ : Session}, s.Confined [] σ.store → (∀ v ∈ vs, v.Plain s) →
      Ends (Value.typesOf p vs) σ
        (fun ts σ' =>
          List.Forall₂ (fun v t => ∀ θ, σ'.store.SolvedBy θ → Inhabits s v (t.subst θ)) vs ts)
        fun err _ => err ≠ .cyclic
  | [], σ, _, _ => by
      rw [Value.typesOf]
      exact Ends.pure .nil
  | v :: vs, σ, h, hvs => by
      rw [Value.typesOf]
      obtain ⟨hv, hvs⟩ := List.forall_mem_cons.mp hvs
      refine Ends.bind ((typeOf_sound hs p v h hv).and (typeOf_keeps p v h (hv.admits s []))) ?_
      rintro t σ₁ ⟨ht, ⟨h₁, -⟩, -⟩
      refine Ends.bind ((typesOf_sound hs p vs h₁ hvs).and
        (typesOf_keeps p vs h₁ (Value.Plain.admitsAll hvs s []))) ?_
      rintro ts σ₂ ⟨hts, ⟨-, hext₂⟩, -⟩
      exact Ends.pure (.cons (fun θ hθ => ht θ (hext₂.solved θ hθ)) hts)

theorem agreeWith_sound {s : Store} (hs : s.WellFormed) (p : SupplyId) {elem : Ty} :
    ∀ (vs : List Value) {σ : Session}, s.Confined [] σ.store → (∀ v ∈ vs, v.Plain s) →
      s.Owns [] σ.store elem →
      Ends (Value.agreeWith p elem vs) σ
        (fun _ σ' => ∀ θ, σ'.store.SolvedBy θ → ∀ v ∈ vs, Inhabits s v (elem.subst θ))
        fun err _ => err ≠ .cyclic
  | [], σ, _, _, _ => by
      rw [Value.agreeWith]
      exact Ends.pure fun _ _ _ hv => nomatch hv
  | v :: vs, σ, h, hvs, helem => by
      rw [Value.agreeWith]
      obtain ⟨hv, hvs⟩ := List.forall_mem_cons.mp hvs
      refine Ends.bind ((typeOf_sound hs p v h hv).and (typeOf_keeps p v h (hv.admits s []))) ?_
      rintro t σ₁ ⟨ht, ⟨h₁, hext₁⟩, hown⟩
      have helem₁ := helem.extend hext₁
      have hunify := unify_adds h₁.wellFormed helem₁.covers hown.covers
      refine Ends.bind hunify fun _ σ₂ h₂ => ?_
      have hconf₂ := h₁.adds helem₁.stable hown.stable h₂
      have helem₂ := helem₁.extend h₂.toExtends
      refine Ends.mono ((agreeWith_sound hs p vs hconf₂ hvs helem₂).and
        (agreeWith_keeps p vs hconf₂ (Value.Plain.admitsAll hvs s []) helem₂)) ?_ fun _ _ h => h
      rintro _ σ₃ ⟨hrest, ⟨-, hext₃⟩, -⟩ θ hθ
      obtain ⟨hθ₁, heq⟩ := (h₂.solved_iff θ).mp (hext₃.solved θ hθ)
      refine List.forall_mem_cons.mpr ⟨?_, hrest θ hθ⟩
      rw [solves_singleton.mp heq]
      exact ht θ hθ₁

theorem fitFields_sound {s : Store} (hs : s.WellFormed) (p : SupplyId) :
    ∀ (templates : List Ty) (vs : List Value) {σ : Session} {m : Renaming},
      s.Confined [] σ.store → (∀ t ∈ templates, s.Covers t) → (∀ v ∈ vs, v.Plain s) →
      m.Between s.size σ.store.size →
      Ends (Value.fitFields p m templates vs) σ
        (fun _ σ' => ∀ θ, σ'.store.SolvedBy θ →
          ∃ ψ, m.Carries ψ θ ∧ ∀ q ∈ vs.zip templates, Inhabits s q.1 ((s.resolve q.2).subst ψ))
        fun err _ => err ≠ .cyclic
  | [], vs, σ, m, _, _, _, _ => by
      simp only [Value.fitFields]
      refine Ends.pure fun θ _ => ⟨_, m.carries_valuesIn θ, fun q hq => ?_⟩
      rw [List.zip_nil_right] at hq
      cases hq
  | _ :: _, [], σ, m, _, _, _, _ => by
      simp only [Value.fitFields]
      exact Ends.pure fun θ _ => ⟨_, m.carries_valuesIn θ, fun _ hq => nomatch hq⟩
  | template :: templates, v :: vs, σ, m, h, htemplates, hvs, hm => by
      rw [Value.fitFields]
      obtain ⟨htemplate, htemplates⟩ := List.forall_mem_cons.mp htemplates
      obtain ⟨hv, hvs⟩ := List.forall_mem_cons.mp hvs
      refine Ends.bind ((copied_ends h.wellFormed template p m).and
        (Keeps.copyWith h template p hm)) ?_
      rintro ⟨expected, m'⟩ σ₁ ⟨hcopied, ⟨h₁, -⟩, hexpected, hm'⟩
      refine Ends.bind ((typeOf_sound hs p v h₁ hv).and (typeOf_keeps p v h₁ (hv.admits s []))) ?_
      rintro t σ₂ ⟨ht, ⟨h₂, hext₂⟩, hown⟩
      have hexpected₂ := hexpected.extend hext₂
      have hunify := unify_adds h₂.wellFormed hexpected₂.covers hown.covers
      refine Ends.bind hunify fun _ σ₃ h₃ => ?_
      have hconf₃ := h₂.adds hexpected₂.stable hown.stable h₃
      have hm₃ : Renaming.Between s.size σ₃.store.size m' := fun u w hw =>
        ⟨(hm' u w hw).1, Nat.lt_of_lt_of_le (hm' u w hw).2 (hext₂.trans h₃.toExtends).size_le⟩
      refine Ends.mono ((fitFields_sound hs p templates vs hconf₃ htemplates hvs hm₃).and
        (fitFields_keeps p templates vs hconf₃ (Value.Plain.admitsAll hvs s []) hm₃)) ?_
        fun _ _ h => h
      rintro _ σ₄ ⟨hrest, ⟨-, hext₄⟩, -⟩ θ hθ
      obtain ⟨hθ₂, heq⟩ := (h₃.solved_iff θ).mp (hext₄.solved θ hθ)
      obtain ⟨ψ, hc, hfields⟩ := hrest θ hθ
      refine ⟨ψ, hcopied.grows.carries hc, ?_⟩
      rw [List.zip_cons_cons]
      refine List.forall_mem_cons.mpr ⟨?_, hfields⟩
      have hvalue := ht θ hθ₂
      rwa [← solves_singleton.mp heq, hcopied.value hc, h.resolve_eq hs htemplate] at hvalue

end

end Overload
