import Overload.Proofs.RunRules
import Overload.Proofs.ValueTyping

/-!
# What a host may touch

A host function gets at types only through its arguments, the answers to its requests and what the
host knew before. It can therefore mention variables of these and no others (`Host.Knows`). The run
of such a function is confined to the variables that the host knew before, whatever it asks for and
however deep its calls are nested (`runCode_confined`). In particular a call that is in progress
keeps its own variables to itself: nobody has been shown them.

The run lemma is by induction on the depth of nesting, and inside by induction on the requests of
one function. The invariant is that what has been shown is shown still.
-/

namespace Overload

/-! ## What is carried along -/

def Env.vars (Γ : Env) : List Var := Γ.bindings.flatMap fun b => b.2.vars

namespace Request

/-- The variables of all types that a request mentions. -/
def vars : Request → List Var
  | .apply func args => func.vars ++ Value.varsAll args
  | .callMethod _ _ _ args => Value.varsAll args
  | .callInstance _ _ _ args => Value.varsAll args
  | .typeOf v => v.vars
  | .bareTypeOf v => v.vars
  | .analyze _ Γ => Γ.vars
  | .display t => t.vars

/-- The variables that an answer shows. -/
def shows : (r : Request) → r.Answer → List Var
  | .apply .., v => Value.vars v
  | .callMethod .., v => Value.vars v
  | .callInstance .., v => Value.vars v
  | .typeOf _, t => Ty.vars t
  | .bareTypeOf _, t => Ty.vars t
  | .analyze .., t => Ty.vars t
  | .display _, _ => []

/-- A fault shows none. -/
def shown (r : Request) : Except Fault r.Answer → List Var
  | .ok a => r.shows a
  | .error _ => []

end Request

/-- Started with the variables in `known`, the action mentions those and the ones that it is shown
on the way. -/
def Action.Knows : Action Value → List Var → Prop
  | .done v, known => v.vars ⊆ known
  | .fail _, _ => True
  | .ask _ r next, known => r.vars ⊆ known ∧ ∀ x, (next x).Knows (known ++ r.shown x)

/-- Implementations mention known variables only. -/
def Registry.Knows (r : Registry) (known : List Var) : Prop :=
  ∀ cls ty record name imp, r.lookup cls ty = .ok record → record.get? name = some imp →
    imp.vars ⊆ known

/-- So does everything that the host brings with it. -/
structure Host.Knows (h : Host) (known : List Var) : Prop where
  functions : ∀ index args, (h.function index args).Knows (known ++ Value.varsAll args)
  engines : ∀ name e, h.engine? name = some e → e.registry.Knows known

theorem Action.Knows.mono {act : Action Value} {known known' : List Var} (h : act.Knows known)
    (hsub : known ⊆ known') : act.Knows known' := by
  induction act generalizing known known' with
  | done v => exact List.Subset.trans h hsub
  | fail f => trivial
  | ask engine r next ih =>
      refine ⟨List.Subset.trans h.1 hsub, fun x => ih x (h.2 x) ?_⟩
      exact List.append_subset.mpr ⟨List.subset_append_of_subset_left _ hsub,
        List.subset_append_right ..⟩

theorem Registry.Knows.mono {r : Registry} {known known' : List Var} (h : r.Knows known)
    (hsub : known ⊆ known') : r.Knows known' := fun cls ty record name imp hrecord himp =>
  List.Subset.trans (h cls ty record name imp hrecord himp) hsub

theorem Host.Knows.mono {h : Host} {known known' : List Var} (hh : h.Knows known)
    (hsub : known ⊆ known') : h.Knows known' where
  functions index args := (hh.functions index args).mono <|
    List.append_subset.mpr ⟨List.subset_append_of_subset_left _ hsub, List.subset_append_right ..⟩
  engines name e he := (hh.engines name e he).mono hsub

namespace Value

theorem varsAll_append (vs ws : List Value) : varsAll (vs ++ ws) = varsAll vs ++ varsAll ws := by
  simp only [varsAll_eq, List.flatMap_append]

mutual

theorem shared_subset_vars : ∀ v : Value, v.shared ⊆ v.vars
  | .unit | .bool _ | .int _ | .float _ | .text _ | .builtin .. | .method .. => by
      rw [shared] <;> simp
  | .list items | .tuple items => by
      rw [shared, vars]
      exact sharedAll_subset_varsAll items
  | .data _ _ items | .typed _ _ _ items => by
      rw [shared, vars]
      exact List.subset_append_of_subset_right _ (sharedAll_subset_varsAll items)
  | .foreign object => by
      rw [shared, vars]
      cases object.description with
      | none => simp
      | some d =>
          dsimp only
          split <;> simp

theorem sharedAll_subset_varsAll : ∀ vs : List Value, sharedAll vs ⊆ varsAll vs
  | [] => by simp [sharedAll]
  | v :: vs => by
      rw [sharedAll, varsAll]
      exact List.append_subset.mpr
        ⟨List.subset_append_of_subset_left _ (shared_subset_vars v),
          List.subset_append_of_subset_right _ (sharedAll_subset_varsAll vs)⟩

end

end Value

theorem Store.Shows.admits {s s' : Store} {fixed vs : List Var} (h : s.Shows fixed s' vs) :
    s'.Admits vs vs := fun w hw => ⟨hw, h.lt_size w hw⟩

theorem Store.Shows.scopes {s s' : Store} {fixed : List Var} {Γ : Env}
    (h : s.Shows fixed s' Γ.vars) : s'.Scopes Γ [] := by
  refine ⟨fun {x t} hx w hw => h.lt_size w ?_, fun hf => nomatch hf⟩
  obtain ⟨l₁, l₂, hbindings, -⟩ := List.lookup_eq_some_iff.mp hx
  refine List.mem_flatMap.mpr ⟨(x, t), ?_, hw⟩
  simp [hbindings]

theorem Store.shows_varsAll {s s' : Store} {fixed : List Var} {vs : List Value} :
    s.Shows fixed s' (Value.varsAll vs) ↔ ∀ v ∈ vs, s.Shows fixed s' v.vars := by
  rw [Value.varsAll_eq]
  exact List.forall_mem_flatMap

theorem Store.shows_list {s s' : Store} {fixed : List Var} {vs : List Value} :
    s.Shows fixed s' (Value.list vs).vars ↔ ∀ v ∈ vs, s.Shows fixed s' v.vars := by
  rw [Value.vars, shows_varsAll]

section steps

variable {s : Store} {fixed : List Var} {e : Engine} {m : Machine}

/-! ## Inference in a run -/

theorem typeOf_run_keeps {v : Value} (p : SupplyId) (h : s.Confined fixed m.store)
    (hv : s.Shows fixed m.store v.vars) :
    Run.Keeps (liftM (v.typeOf p)) s fixed m fun t s' => s.Owns fixed s' t := by
  have hshared := hv.mono v.shared_subset_vars
  have hkeeps := typeOf_keeps p v (.refl h.wellFormed v.shared) hshared.admits
  exact .infer h hshared hkeeps fun t s' hext ht => ht.trans h hext hshared

theorem analyze_run_keeps (x : Expr) {Γ : Env} (p : SupplyId) (h : s.Confined fixed m.store)
    (hΓ : s.Shows fixed m.store Γ.vars) :
    Run.Keeps (liftM (x.analyze p Γ [])) s fixed m fun t s' => s.Owns fixed s' t := by
  have hnone := Store.shows_nil s fixed m.store
  have hkeeps := analyze_keeps x (p := p) (.refl h.wellFormed []) hΓ.scopes (.refl m.store [])
  exact .infer h hnone hkeeps fun t s' hext ht => ht.trans h hext hnone

theorem meets_keeps (r : Registry) (cls : ClassId) (v : Var) (h : s.Confined fixed m.store) :
    Run.Keeps (r.meets cls v) s fixed m fun _ _ => True := by
  rw [Registry.meets]
  refine (Run.Keeps.reads h (Store.reads_prune h.wellFormed (.var v))).bind fun t m₁ h₁ _ _ => ?_
  cases t with
  | var w => exact .pure h₁ trivial
  | con c args =>
      exact (Run.Keeps.ofClassError h₁ (r.lookup cls c)).discard.bind fun _ m₂ h₂ _ _ =>
        .pure h₂ trivial

theorem openConstraints_keeps (r : Registry) (copies : Renaming) (cs : List Constraint)
    (h : s.Confined fixed m.store) :
    Run.Keeps (r.openConstraints copies cs) s fixed m fun _ _ => True := by
  rw [Registry.openConstraints]
  induction cs generalizing m with
  | nil => exact .pure h trivial
  | cons c cs ih =>
      rw [List.filterMapM_cons, bind_assoc]
      refine (meets_keeps r c.cls _ h).bind fun met m₁ h₁ _ _ => ?_
      cases met with
      | true => exact ih h₁
      | false => exact (ih h₁).bind fun _ m₂ h₂ _ _ => .pure h₂ trivial

theorem accept_keeps (name : String) (sig : Signature) {args : List Value}
    (h : s.Confined fixed m.store) (hargs : s.Shows fixed m.store (Value.varsAll args)) :
    Run.Keeps (e.accept name sig args) s fixed m fun r s' => s.Owns fixed s' r.1 := by
  have hshared := hargs.mono (Value.sharedAll_subset_varsAll args)
  rw [Engine.accept]
  refine (Run.Keeps.infer h hshared
    (Signature.applyTo_keeps (.refl h.wellFormed (Value.sharedAll args)) hshared.admits)
    fun r s' hext hr => hr.trans h hext hshared).bind ?_
  rintro ⟨o, ret⟩ m₁ h₁ - hret
  dsimp only
  split
  · refine (openConstraints_keeps e.registry o.copies sig.constraints h₁).bind
      fun pending m₂ h₂ hext₂ _ => .pure h₂ (hret.extend hext₂)
  · exact .pure h₁ hret

theorem inspect_keeps {ret : Ty} (pending : List (ClassId × Var)) {v : Value}
    (h : s.Confined fixed m.store) (hret : s.Owns fixed m.store ret)
    (hv : s.Shows fixed m.store v.vars) :
    Run.Keeps (e.inspect ret pending v) s fixed m fun _ _ => True := by
  rw [Engine.inspect]
  split
  · refine (typeOf_run_keeps e.supply h hv).bind fun t m₁ h₁ hext₁ ht => ?_
    refine (Run.Keeps.unify h₁ ht (hret.extend hext₁)).bind fun _ m₂ h₂ _ _ => ?_
    exact .forM pending h₂ fun q _ m₃ h₃ => (meets_keeps e.registry q.1 q.2 h₃).discard
  · exact .pure h trivial

theorem announceResult_keeps (name : String) (ret : Ty) (h : s.Confined fixed m.store) :
    Run.Keeps (Engine.announceResult name ret) s fixed m fun _ _ => True := by
  rw [Engine.announceResult]
  refine Run.Keeps.bind (x := get) (P := fun _ _ => True) ⟨⟨h, .refl h.wellFormed⟩, trivial⟩
    fun m' m₁ h₁ _ _ => ?_
  split
  · refine (Run.Keeps.reads h₁ (Store.reads_display h₁.wellFormed ret)).bind
      fun text m₂ h₂ _ _ => .report h₂ _ _
  · exact .pure h₁ trivial

theorem conclude_keeps (name : String) {ret : Ty} (pending : List (ClassId × Var)) {v : Value}
    (h : s.Confined fixed m.store) (hret : s.Owns fixed m.store ret)
    (hv : s.Shows fixed m.store v.vars) :
    Run.Keeps (e.conclude name ret pending v) s fixed m
      fun out s' => s.Shows fixed s' out.value.vars := by
  rw [Engine.conclude]
  refine (inspect_keeps pending h hret hv).bind fun _ m₁ h₁ hext₁ _ => ?_
  refine (announceResult_keeps name ret h₁).bind fun _ m₂ h₂ hext₂ _ => ?_
  exact .pure h₂ (hv.extend (hext₁.trans hext₂))

end steps

/-! ## Calls -/

/-- Calls made by code stay within the confines, in an engine whose registry does. -/
def Apply.Keeps (apply : Apply) (s : Store) (fixed : List Var) : Prop :=
  ∀ (e : Engine) (func : Value) (args : List Value) (m : Machine), e.registry.Knows fixed →
    s.Confined fixed m.store → s.Shows fixed m.store func.vars →
    s.Shows fixed m.store (Value.varsAll args) →
    Run.Keeps (apply e func args) s fixed m fun v s' => s.Shows fixed s' v.vars

namespace Operation

theorem eq_of_two {op : Operation} {args : List Value} {q : Value × Value}
    (h : op.two args = .ok q) : args = [q.1, q.2] := by
  unfold two at h
  split at h
  · rw [← Except.ok.inj h]
  · cases h

theorem eq_of_items {context : String} {v : Value} {vs : List Value}
    (h : items context v = .ok vs) : v = .list vs := by
  unfold items at h
  split at h
  · rw [Except.ok.inj h]
  · cases h

/-- Truth values, numbers and texts mention no variables. -/
theorem vars_of_compared {a b v : Value} (h : compared a b = .ok v) : v.vars = [] := by
  unfold compared at h
  split at h
  · rw [← Except.ok.inj h]
    simp [Value.vars]
  · cases h

theorem vars_of_checked {n : Int} {v : Value} (h : checked n = .ok v) : v.vars = [] := by
  unfold checked at h
  split at h
  · rw [← Except.ok.inj h]
    simp [Value.vars]
  · cases h

theorem vars_of_arithmetic {op : Operation} {onInts : Int → Int → Int}
    {onFloats : Binary64 → Binary64 → Binary64} {a b v : Value}
    (h : arithmetic op onInts onFloats a b = .ok v) : v.vars = [] := by
  unfold arithmetic at h
  split at h
  · exact vars_of_checked h
  · rw [← Except.ok.inj h]
    simp [Value.vars]
  · cases h

theorem vars_of_negated {a v : Value} (h : negated a = .ok v) : v.vars = [] := by
  unfold negated at h
  split at h
  · exact vars_of_checked h
  · rw [← Except.ok.inj h]
    simp [Value.vars]
  · cases h

end Operation

section calls

variable {s : Store} {fixed : List Var} {apply : Apply} {e : Engine} {m : Machine}
  {args : List Value}

theorem Run.Keeps.plain {x : Except Fault Value} (h : s.Confined fixed m.store)
    (hx : ∀ v, x = .ok v → v.vars = []) :
    Run.Keeps (liftM x) s fixed m fun v s' => s.Shows fixed s' v.vars :=
  (Run.Keeps.ofFault h x).mono fun v s' _ hv => hx v hv ▸ Store.shows_nil s fixed s'

theorem Apply.Keeps.each (happly : apply.Keeps s fixed) (hreg : e.registry.Knows fixed)
    {func : Value} {vs : List Value} (h : s.Confined fixed m.store)
    (hfunc : s.Shows fixed m.store func.vars) (hvs : ∀ v ∈ vs, s.Shows fixed m.store v.vars) :
    Run.Keeps (vs.mapM fun v => apply e func [v]) s fixed m
      fun rs s' => ∀ r ∈ rs, s.Shows fixed s' r.vars := by
  refine .mapM vs h (fun r s₁ s₂ hr hext => hr.extend hext) fun v hv m₁ h₁ hext₁ => ?_
  refine happly e func [v] m₁ hreg h₁ (hfunc.extend hext₁) (Store.shows_varsAll.mpr fun w hw => ?_)
  rw [List.mem_singleton.mp hw]
  exact (hvs v hv).extend hext₁

/-- The rows that are made from each item, put together into one list. -/
theorem Run.Keeps.rows {f : Value → Run (List Value)} (vs : List Value)
    (h : s.Confined fixed m.store)
    (hf : ∀ v ∈ vs, ∀ m', s.Confined fixed m'.store → m.store.Extends m'.store →
      Run.Keeps (f v) s fixed m' fun row s' => ∀ r ∈ row, s.Shows fixed s' r.vars) :
    Run.Keeps (do return Value.list (← vs.mapM f).flatten) s fixed m
      fun v s' => s.Shows fixed s' v.vars := by
  refine (Run.Keeps.mapM vs h (fun row s₁ s₂ hrow hext r hr => ?_) hf).bind
    fun rows m₁ h₁ _ hrows => .pure h₁ (Store.shows_list.mpr fun r hr => ?_)
  · exact (hrow r hr).extend hext
  · obtain ⟨row, hrow, hr⟩ := List.mem_flatten.mp hr
    exact hrows row hrow r hr

theorem Operation.run_keeps (happly : apply.Keeps s fixed) (hreg : e.registry.Knows fixed)
    (op : Operation) (h : s.Confined fixed m.store)
    (hargs : s.Shows fixed m.store (Value.varsAll args)) :
    Run.Keeps (op.run apply e args) s fixed m fun v s' => s.Shows fixed s' v.vars := by
  rw [Store.shows_varsAll] at hargs
  have hnone : ∀ {v : Value} {s' : Store}, v.vars = [] → s.Shows fixed s' v.vars :=
    fun hv => hv ▸ Store.shows_nil s fixed _
  cases op <;> dsimp only [Operation.run]
  case display =>
    exact (Run.Keeps.ofFault h _).bind fun v m₁ h₁ _ _ => .pure h₁ (hnone (by simp [Value.vars]))
  case eq =>
    exact (Run.Keeps.ofFault h _).bind fun q m₁ h₁ _ _ => .pure h₁ (hnone (by simp [Value.vars]))
  case compare =>
    exact (Run.Keeps.ofFault h _).bind fun q m₁ h₁ _ _ => .plain h₁ fun v => vars_of_compared
  case add | sub | mul =>
    exact (Run.Keeps.ofFault h _).bind fun q m₁ h₁ _ _ => .plain h₁ fun v => vars_of_arithmetic
  case negate =>
    exact (Run.Keeps.ofFault h _).bind fun v m₁ h₁ _ _ => .plain h₁ fun v => vars_of_negated
  case pure => exact .pure h (Store.shows_list.mpr hargs)
  case fmap =>
    refine (Run.Keeps.ofFault h _).bind fun ⟨func, container⟩ m₁ h₁ hext₁ htwo => ?_
    refine (Run.Keeps.ofFault h₁ _).bind fun vs m₂ h₂ hext₂ hitems => ?_
    obtain rfl := eq_of_two htwo
    obtain rfl := eq_of_items hitems
    have hext := hext₁.trans hext₂
    have hvs := Store.shows_list.mp ((hargs (.list vs) (by simp)).extend hext)
    exact (happly.each hreg h₂ ((hargs func (by simp)).extend hext) hvs).bind
      fun rs m₃ h₃ _ hrs => .pure h₃ (Store.shows_list.mpr hrs)
  case ap =>
    refine (Run.Keeps.ofFault h _).bind fun ⟨left, right⟩ m₁ h₁ hext₁ htwo => ?_
    refine (Run.Keeps.ofFault h₁ _).bind fun funcs m₂ h₂ hext₂ hleft => ?_
    refine (Run.Keeps.ofFault h₂ _).bind fun vs m₃ h₃ hext₃ hright => ?_
    obtain rfl := eq_of_two htwo
    obtain rfl := eq_of_items hleft
    obtain rfl := eq_of_items hright
    have hext := hext₁.trans (hext₂.trans hext₃)
    have hfuncs := Store.shows_list.mp ((hargs (.list funcs) (by simp)).extend hext)
    have hvs := Store.shows_list.mp ((hargs (.list vs) (by simp)).extend hext)
    exact .rows funcs h₃ fun func hfunc m₄ h₄ hext₄ =>
      happly.each hreg h₄ ((hfuncs func hfunc).extend hext₄) fun v hv => (hvs v hv).extend hext₄
  case bind =>
    refine (Run.Keeps.ofFault h _).bind fun ⟨container, func⟩ m₁ h₁ hext₁ htwo => ?_
    refine (Run.Keeps.ofFault h₁ _).bind fun vs m₂ h₂ hext₂ hitems => ?_
    obtain rfl := eq_of_two htwo
    obtain rfl := eq_of_items hitems
    have hext := hext₁.trans hext₂
    have hvs := Store.shows_list.mp ((hargs (.list vs) (by simp)).extend hext)
    refine .rows vs h₂ fun v hv m₃ h₃ hext₃ => ?_
    have hv : s.Shows fixed m₃.store (Value.varsAll [v]) := Store.shows_varsAll.mpr fun w hw => by
      rw [List.mem_singleton.mp hw]
      exact (hvs v hv).extend hext₃
    have hfunc := (hargs func (by simp)).extend (hext.trans hext₃)
    refine (happly e func [v] m₃ hreg h₃ hfunc hv).bind fun produced m₄ h₄ _ hproduced => ?_
    refine (Run.Keeps.ofFault h₄ _).mono fun row s' hext' hrow => ?_
    obtain rfl := eq_of_items hrow
    exact Store.shows_list.mp (hproduced.extend hext')

theorem callInstance_keeps (happly : apply.Keeps s fixed) (hreg : e.registry.Knows fixed)
    (hfixed : ∀ f ∈ fixed, f.index < s.size) (cls : ClassId) (ty : TypeCon) (name : String)
    (h : s.Confined fixed m.store) (hargs : s.Shows fixed m.store (Value.varsAll args)) :
    Run.Keeps (e.callInstance apply cls ty name args) s fixed m
      fun v s' => s.Shows fixed s' v.vars := by
  rw [Engine.callInstance]
  refine .traced ?_
  have h : s.Confined fixed (m.setActive (some e.settings.trace)).store := h
  refine (Run.Keeps.ofClassError h _).bind fun record m₁ h₁ hext₁ hrecord => ?_
  split
  · next imp himp =>
      have himp := (h₁.shows hfixed).mono (hreg cls ty record name imp hrecord himp)
      refine (Run.Keeps.report h₁ _ _).bind fun _ m₂ h₂ hext₂ _ => ?_
      exact happly e imp args m₂ hreg h₂ (himp.extend hext₂) (hargs.extend (hext₁.trans hext₂))
  · exact (Run.Keeps.ofClassError h₁ _).bind fun _ m₂ h₂ _ _ => .throw h₂ _

theorem callMethod_keeps (happly : apply.Keeps s fixed) (hreg : e.registry.Knows fixed)
    (hfixed : ∀ f ∈ fixed, f.index < s.size) (cls : ClassId) (name : String) (dispatchOn : ArgIndex)
    (h : s.Confined fixed m.store) (hargs : s.Shows fixed m.store (Value.varsAll args)) :
    Run.Keeps (e.callMethod apply cls name dispatchOn args) s fixed m
      fun v s' => s.Shows fixed s' v.vars := by
  rw [Engine.callMethod]
  split
  · exact callInstance_keeps happly hreg hfixed cls _ name h hargs
  · exact .throw h _

/-- What a request shows is not decided outside the confines. -/
theorem answer_keeps (happly : apply.Keeps s fixed) (hreg : e.registry.Knows fixed)
    (hfixed : ∀ f ∈ fixed, f.index < s.size) (r : Request) (h : s.Confined fixed m.store)
    (hr : s.Shows fixed m.store r.vars) :
    Run.Keeps (e.answer apply r) s fixed m fun a s' => s.Shows fixed s' (r.shows a) := by
  cases r with
  | apply func args =>
      have hfunc := hr.mono (List.subset_append_left func.vars (Value.varsAll args))
      have hargs := hr.mono (List.subset_append_right func.vars (Value.varsAll args))
      exact happly e func args m hreg h hfunc hargs
  | callMethod cls name dispatchOn args =>
      exact callMethod_keeps happly hreg hfixed cls name dispatchOn h hr
  | callInstance cls ty name args =>
      exact callInstance_keeps happly hreg hfixed cls ty name h hr
  | typeOf v =>
      refine Run.Keeps.traced (Run.Keeps.mono (typeOf_run_keeps e.supply h hr) ?_)
      exact fun t s' _ ht => ht.shows
  | bareTypeOf v => exact (typeOf_run_keeps e.supply h hr).mono fun t s' _ ht => ht.shows
  | analyze x Γ =>
      refine Run.Keeps.traced (Run.Keeps.mono (analyze_run_keeps x e.supply h hr) ?_)
      exact fun t s' _ ht => ht.shows
  | display t =>
      exact (Run.Keeps.reads h (Store.reads_display h.wellFormed t)).mono fun _ s' _ _ =>
        Store.shows_nil s fixed s'

variable {h : Host}

theorem inEngine_keeps {α : Type} (hhost : h.Knows fixed) (hreg : e.registry.Knows fixed)
    (name : Option String) (act : Engine → Run α) {P : α → Store → Prop}
    (hconf : s.Confined fixed m.store)
    (hact : ∀ (e' : Engine) (m' : Machine), e'.registry.Knows fixed → m'.store = m.store →
      Run.Keeps (act e') s fixed m' P) :
    Run.Keeps (h.inEngine e name act) s fixed m P := by
  unfold Host.inEngine
  cases name with
  | none => exact hact e m hreg rfl
  | some name =>
      dsimp only
      split
      · exact .throw hconf _
      · next e' hfind =>
          refine Run.Keeps.bind (x := get) (P := fun _ s' => s' = m.store)
            ⟨⟨hconf, .refl hconf.wellFormed⟩, rfl⟩ fun m' m₁ h₁ _ hm₁ => ?_
          split
          · exact .throw h₁ _
          · exact .occupied (hact e' _ (hhost.engines name e' hfind) hm₁)

theorem perform_keeps (happly : apply.Keeps s fixed) (hhost : h.Knows fixed)
    (hreg : e.registry.Knows fixed) (hfixed : ∀ f ∈ fixed, f.index < s.size)
    (act : Action Value) {known : List Var} (hact : act.Knows known)
    (hconf : s.Confined fixed m.store) (hknown : s.Shows fixed m.store known) :
    Run.Keeps (h.perform apply e act) s fixed m fun v s' => s.Shows fixed s' v.vars := by
  induction act generalizing m known with
  | done v => exact .pure hconf (hknown.mono hact)
  | fail f => exact .throw hconf f
  | ask engine r next ih =>
      rw [Host.perform]
      have hanswer := inEngine_keeps hhost hreg engine (fun e' => e'.answer apply r) hconf
        fun e' m' hreg' hm' => answer_keeps happly hreg' hfixed r (hm' ▸ hconf)
          (hm' ▸ hknown.mono hact.1)
      refine hanswer.observe.bind fun outcome m₁ h₁ hext₁ hshown => ?_
      refine ih outcome (hact.2 outcome) h₁ ((hknown.extend hext₁).append ?_)
      cases outcome with
      | ok a => exact hshown a rfl
      | error f => exact Store.shows_nil s fixed m₁.store

theorem runCode_keeps (happly : apply.Keeps s fixed) (hhost : h.Knows fixed)
    (hreg : e.registry.Knows fixed) (hfixed : ∀ f ∈ fixed, f.index < s.size) (name : String)
    (code : Code) (hconf : s.Confined fixed m.store)
    (hargs : s.Shows fixed m.store (Value.varsAll args)) :
    Run.Keeps (h.runCode apply e name code args) s fixed m
      fun v s' => s.Shows fixed s' v.vars := by
  cases code with
  | operation op => exact op.run_keeps happly hreg hconf hargs
  | host index =>
      refine (Run.Keeps.logCall hconf name).bind fun _ m₁ h₁ hext₁ _ => ?_
      exact perform_keeps happly hhost hreg hfixed _ (hhost.functions index args) h₁
        ((h₁.shows hfixed).append (hargs.extend hext₁))

theorem callTyped_keeps (happly : apply.Keeps s fixed) (hhost : h.Knows fixed)
    (hreg : e.registry.Knows fixed) (hfixed : ∀ f ∈ fixed, f.index < s.size) (name : String)
    {sig : Signature} (code : Code) {bound : List Value} (hconf : s.Confined fixed m.store)
    (hsig : s.Shows fixed m.store sig.vars)
    (hall : s.Shows fixed m.store (Value.varsAll (bound ++ args))) :
    Run.Keeps (h.callTyped apply e name sig code bound args) s fixed m
      fun out s' => s.Shows fixed s' out.value.vars := by
  rw [Host.callTyped]
  refine .traced ?_
  have hconf : s.Confined fixed (m.setActive (some e.settings.trace)).store := hconf
  dsimp only
  split
  · exact .throw hconf _
  · split
    · refine (Run.Keeps.report hconf _ _).bind fun _ m₁ h₁ hext₁ _ => .pure h₁ ?_
      rw [CallOutcome.value, Value.vars]
      exact (hsig.append hall).extend hext₁
    · refine (accept_keeps name sig hconf hall).bind ?_
      rintro ⟨ret, pending⟩ m₁ h₁ hext₁ hret
      refine (runCode_keeps happly hhost hreg hfixed name code h₁ (hall.extend hext₁)).bind
        fun v m₂ h₂ hext₂ hv => ?_
      exact conclude_keeps name pending h₂ (hret.extend hext₂) hv

theorem applyWith_keeps (happly : apply.Keeps s fixed) (hhost : h.Knows fixed)
    (hfixed : ∀ f ∈ fixed, f.index < s.size) : Apply.Keeps (h.applyWith apply) s fixed := by
  intro e func args m hreg hconf hfunc hargs
  unfold Host.applyWith
  refine .traced ?_
  have hconf : s.Confined fixed (m.setActive (some e.settings.trace)).store := hconf
  split
  · next name arity code bound =>
      rw [Value.vars] at hfunc
      have hall := Value.varsAll_append bound args ▸ hfunc.append hargs
      dsimp only
      split
      · exact .throw hconf _
      · split
        · exact runCode_keeps happly hhost hreg hfixed name code hconf hall
        · refine .pure hconf ?_
          rw [Value.vars]
          exact hall
  · next name sig code bound =>
      rw [Value.vars] at hfunc
      have hsig := hfunc.mono (List.subset_append_left _ _)
      have hbound := hfunc.mono (List.subset_append_right _ _)
      have hall := Value.varsAll_append bound args ▸ hbound.append hargs
      exact (callTyped_keeps happly hhost hreg hfixed name code hconf hsig hall).bind
        fun out m₁ h₁ _ hout => .pure h₁ hout
  · next ref bound =>
      rw [Value.vars] at hfunc
      have hall := Value.varsAll_append bound args ▸ hfunc.append hargs
      dsimp only
      split
      · exact .throw hconf _
      · split
        · refine .pure hconf ?_
          rw [Value.vars]
          exact hall
        · exact callMethod_keeps happly hreg hfixed _ _ _ hconf hall
  · exact .throw hconf _

/-- However deep calls are nested, they are confined to what the host knew at the start. -/
theorem applyWithin_keeps (hhost : h.Knows fixed) (hfixed : ∀ f ∈ fixed, f.index < s.size)
    (n : Nat) : Apply.Keeps (h.applyWithin n) s fixed := by
  induction n with
  | zero => exact fun e func args m _ hconf _ _ => .throw hconf _
  | succ n ih => exact fun e func args m => applyWith_keeps ih hhost hfixed e func args m

/-- Code that runs after `s`, on arguments from `s` and for a host that knows `s`, touches no
variable that came between `s` and its start. -/
theorem runCode_confined {known : List Var} {n : Nat} {name : String} {code : Code} {v : Value}
    {m' : Machine} (hm : m.store.WellFormed) (hle : s.size ≤ m.store.size)
    (hknown : ∀ w ∈ known, w.index < s.size) (hargs : ∀ v ∈ args, v.InScope s)
    (hhost : h.Knows known) (hreg : e.registry.Knows known)
    (hrun : h.runCode (h.applyWithin n) e name code args m = .ok v m') :
    ∃ fixed, (∀ f ∈ fixed, f.index < s.size) ∧ m.store.Confined fixed m'.store
      ∧ v.InScope m'.store := by
  have hfixed : ∀ f ∈ known ++ Value.varsAll args, f.index < s.size := by
    intro f hf
    rcases List.mem_append.mp hf with hf | hf
    · exact hknown f hf
    · rw [Value.varsAll_eq] at hf
      obtain ⟨v, hv, hf⟩ := List.mem_flatMap.mp hf
      exact hargs v hv f hf
  have hfixed' := fun f hf => Nat.lt_of_lt_of_le (hfixed f hf) hle
  have hrefl := Store.Confined.refl hm (known ++ Value.varsAll args)
  have hhost := hhost.mono (List.subset_append_left known (Value.varsAll args))
  have hreg := hreg.mono (List.subset_append_left known (Value.varsAll args))
  have hshown := (hrefl.shows hfixed').mono (List.subset_append_right known (Value.varsAll args))
  obtain ⟨⟨hconf, -⟩, hv⟩ := Run.Ends.of_ok (runCode_keeps (applyWithin_keeps hhost hfixed' n)
    hhost hreg hfixed' name code hrefl hshown) hrun
  exact ⟨_, hfixed, hconf, hv.lt_size⟩

end calls

end Overload
