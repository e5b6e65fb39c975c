import Overload.Proofs.Analysis
import Overload.Values.Typing

/-!
# What typing a value may touch

Typing a value copies the types that the value carries, so what it unifies is its own copies. The
exception is a foreign object that shows its type itself and not a copy of it: the variables of
such a type are shared, and the items of a list or the fields of data around it may bind them.
`typeOf_keeps` says that nothing else is touched: typing a value is confined to the variables that
the value shares (`Value.shared`), and to those it allocates.
-/

namespace Overload

/-! ## Terms over new variables -/

/-- The variables of the term have indices from `a` up to `k`. -/
def Ty.Between (a k : Nat) (t : Ty) : Prop := ∀ w ∈ t.vars, a ≤ w.index ∧ w.index < k

namespace Ty.Between

variable {a k : Nat}

theorem var {v : Var} (h : a ≤ v.index) (h' : v.index < k) : (Ty.var v).Between a k := by
  intro w hw
  obtain rfl := List.mem_singleton.mp (by simpa using hw)
  exact ⟨h, h'⟩

theorem con {c : TypeCon} {args : List Ty} (h : ∀ t ∈ args, t.Between a k) :
    (Ty.con c args).Between a k := by
  intro w hw
  rw [vars_con] at hw
  obtain ⟨t, ht, hwt⟩ := List.mem_flatMap.mp hw
  exact h t ht w hwt

theorem nullary (c : TypeCon) : (Ty.nullary c).Between a k := con fun _ h => nomatch h

theorem chain {params : List Ty} {ret : Ty} (hp : ∀ t ∈ params, t.Between a k)
    (hr : ret.Between a k) : (Ty.chain params ret).Between a k := by
  induction params with
  | nil => exact hr
  | cons t ts ih =>
      have hrest := ih fun u hu => hp u (List.mem_cons_of_mem _ hu)
      refine con fun u hu => ?_
      rcases List.mem_pair.mp hu with rfl | rfl
      · exact hp u (List.mem_cons_self ..)
      · exact hrest

theorem mono {k' : Nat} {t : Ty} (h : t.Between a k) (hle : k ≤ k') : t.Between a k' :=
  fun w hw => ⟨(h w hw).1, Nat.lt_of_lt_of_le (h w hw).2 hle⟩

/-- What is over new variables only is the analysis' own. -/
theorem owns {s s' : Store} {fixed : List Var} {t : Ty} (h : t.Between a s'.size)
    (hle : s.size ≤ a) : s.Owns fixed s' t :=
  ⟨fun w hw => (h w hw).2, Store.stable_of_new fun w hw => Nat.le_trans hle (h w hw).1⟩

end Ty.Between

/-- All replacements have indices from `a` up to `k`. -/
def Renaming.Between (a k : Nat) (m : Renaming) : Prop :=
  ∀ v w, m.lookup v = some w → a ≤ w.index ∧ w.index < k

theorem Renaming.Grows.between {m m' : Renaming} {a k k' : Nat} (h : m.Grows k m' k')
    (hm : m.Between a k) (hle : a ≤ k) : m'.Between a k' := by
  intro v w hw
  have hle' := h.le
  rcases h.new v w hw with hv | hb
  · have hb := hm v w hv
    omega
  · omega

namespace Store

theorem Alike.resolve_new {s s' : Store} (h : s.Alike s') {k : Nat} {t : Ty}
    (ht : t.Between s.size k) : s'.resolve t = t :=
  resolve_of_unlinked fun v hv => (h.bound_iff v).mpr (link?_of_size_le (ht v hv).1)

/-! ## Copies without fixed variables -/

/-- Where nothing is fixed every variable of a copy is a replacement. -/
theorem Copies.between {s : Store} {x : StateT Renaming StoreM α} {vs : List Var}
    {g : Renaming → α} (h : s.Copies [] x vs g) (hs : s.WellFormed) {a : Nat} {m : Renaming}
    (hm : m.Between a s.size) (hle : a ≤ s.size) :
    (x m s).1.2.Between a (x m s).2.size
      ∧ ∀ t : Ty, (∀ v ∈ t.vars, v ∈ vs) →
          (t.subst ((x m s).1.2.toSubst [])).Between a (x m s).2.size := by
  obtain ⟨-, hmeet, -⟩ := h m s (.refl hs)
  have hgrows := Renaming.grows_meetAll [] vs m s.size
  rw [← hmeet] at hgrows
  have hbetween := hgrows.between hm hle
  refine ⟨hbetween, fun t ht w hw => ?_⟩
  rw [Ty.vars_subst] at hw
  obtain ⟨v, hv, hwv⟩ := List.mem_flatMap.mp hw
  have hmet := Renaming.met [] (ht v hv) m s.size
  rw [← hmeet] at hmet
  obtain ⟨w', hw'⟩ := hmet.resolve_left List.not_mem_nil
  rw [Renaming.toSubst_of_lookup List.not_mem_nil hw'] at hwv
  obtain rfl := List.mem_singleton.mp (by simpa using hwv)
  exact hbetween v w hw'

theorem copyWith_between {s : Store} (hs : s.WellFormed) (t : Ty) (p : SupplyId) {a : Nat}
    {m : Renaming} (hm : m.Between a s.size) (hle : a ≤ s.size) :
    s.Alike (t.copyWith [] p m s).2
      ∧ (t.copyWith [] p m s).1.1.Between a (t.copyWith [] p m s).2.size
      ∧ (t.copyWith [] p m s).1.2.Between a (t.copyWith [] p m s).2.size := by
  have hcopies := copies_copyWith hs t [] p
  obtain ⟨halike, -, hu⟩ := hcopies m s (.refl hs)
  obtain ⟨hm', ht⟩ := hcopies.between hs hm hle
  refine ⟨halike, ?_, hm'⟩
  rw [hu]
  exact ht (s.resolve t) fun v hv => hv

theorem copyAll_between {s : Store} (hs : s.WellFormed) (ts : List Ty) (p : SupplyId) {a : Nat}
    {m : Renaming} (hm : m.Between a s.size) (hle : a ≤ s.size) :
    s.Alike (Ty.copyAll ts [] p m s).2
      ∧ (∀ u ∈ (Ty.copyAll ts [] p m s).1.1, u.Between a (Ty.copyAll ts [] p m s).2.size)
      ∧ (Ty.copyAll ts [] p m s).1.2.Between a (Ty.copyAll ts [] p m s).2.size := by
  have hcopies := Copies.mapM ts fun t _ => copies_copyWith hs t [] p
  obtain ⟨halike, -, hus⟩ := hcopies m s (.refl hs)
  obtain ⟨hm', ht⟩ := hcopies.between hs hm hle
  refine ⟨halike, fun u hu => ?_, hm'⟩
  have hu : u ∈ ts.map _ := hus ▸ hu
  obtain ⟨t, hmem, rfl⟩ := List.mem_map.mp hu
  exact ht (s.resolve t) fun v hv => List.mem_flatMap.mpr ⟨t, hmem, hv⟩

end Store

theorem Keeps.copyWith {s : Store} {fixed : List Var} {σ : Session}
    (h : s.Confined fixed σ.store) (t : Ty) (p : SupplyId) {m : Renaming}
    (hm : m.Between s.size σ.store.size) :
    Keeps (liftM (t.copyWith [] p m)) s fixed σ fun r s' =>
      s.Owns fixed s' r.1 ∧ r.2.Between s.size s'.size := by
  obtain ⟨halike, hu, hm'⟩ := Store.copyWith_between h.wellFormed t p hm h.size_le
  exact .lift h halike ⟨hu.owns (Nat.le_refl _), hm'⟩

theorem Keeps.copyAll {s : Store} {fixed : List Var} {σ : Session}
    (h : s.Confined fixed σ.store) (ts : List Ty) (p : SupplyId) {m : Renaming}
    (hm : m.Between s.size σ.store.size) :
    Keeps (liftM (Ty.copyAll ts [] p m)) s fixed σ fun r s' =>
      (∀ u ∈ r.1, s.Owns fixed s' u) ∧ r.2.Between s.size s'.size := by
  obtain ⟨halike, hus, hm'⟩ := Store.copyAll_between h.wellFormed ts p hm h.size_le
  exact .lift h halike ⟨fun u hu => (hus u hu).owns (Nat.le_refl _), hm'⟩

theorem Renaming.between_nil (a k : Nat) : Renaming.Between a k [] := fun _ _ h => nomatch h

theorem Keeps.copy {s : Store} {fixed : List Var} {σ : Session}
    (h : s.Confined fixed σ.store) (t : Ty) (p : SupplyId) :
    Keeps (liftM (t.copy [] p)) s fixed σ fun u s' => s.Owns fixed s' u := by
  obtain ⟨halike, hu, -⟩ :=
    Store.copyWith_between h.wellFormed t p (Renaming.between_nil _ _) h.size_le
  exact .lift h halike (hu.owns (Nat.le_refl _))

namespace Store

/-! ## Functions -/

theorem mapM_freshTy_between (p : SupplyId) (xs : List Unit) {s : Store} (hs : s.WellFormed)
    {a : Nat} (hle : a ≤ s.size) :
    s.Alike (xs.mapM (fun _ => p.freshTy) s).2
      ∧ ∀ t ∈ (xs.mapM (fun _ => p.freshTy) s).1,
          t.Between a (xs.mapM (fun _ => p.freshTy) s).2.size := by
  induction xs generalizing s with
  | nil => exact ⟨.refl hs, fun _ h => nomatch h⟩
  | cons x xs ih =>
      rw [List.mapM_cons]
      have halike := alike_fresh hs p
      obtain ⟨hrest, hts⟩ := ih halike.wellFormed (Nat.le_trans hle halike.size_le)
      refine ⟨halike.trans hrest, fun t ht => ?_⟩
      rcases List.mem_cons.mp ht with rfl | ht
      · have hlt := covers_var.mp (covers_fresh p s)
        exact .var hle (Nat.lt_of_lt_of_le hlt hrest.size_le)
      · exact hts t ht

end Store

theorem Keeps.unknownFunction {s : Store} {fixed : List Var} {σ : Session}
    (h : s.Confined fixed σ.store) (p : SupplyId) (arity : Nat) :
    Keeps (liftM (Ty.unknownFunction p arity)) s fixed σ fun t s' => s.Owns fixed s' t := by
  obtain ⟨halike, hts⟩ := Store.mapM_freshTy_between p (List.replicate arity ()) h.wellFormed
    (Nat.le_refl σ.store.size)
  have hret := Store.alike_fresh halike.wellFormed p
  refine .lift h (halike.trans hret) (Ty.Between.owns (.chain (fun t ht => ?_) ?_) h.size_le)
  · exact (hts t ht).mono hret.size_le
  · exact .var halike.size_le (Store.covers_var.mp (Store.covers_fresh p _))

/-- The opened type is over new variables, and those that are fixed are among them. -/
theorem openCopy_spec (sig : Signature) (p : SupplyId) {s : Store} (hs : s.WellFormed) :
    s.Alike (sig.openCopy p s).2
      ∧ (sig.openCopy p s).1.ty.Between s.size (sig.openCopy p s).2.size
      ∧ ∀ f ∈ (sig.openCopy p s).1.fixed,
          s.size ≤ f.index ∧ f.index < (sig.openCopy p s).2.size := by
  obtain ⟨halike, hty, -⟩ := Store.copyWith_between hs sig.toTy p
    (Renaming.between_nil _ _) (Nat.le_refl s.size)
  have hwf := halike.wellFormed
  obtain ⟨hfixed, hq⟩ := (Store.reads_freeVars hwf (sig.toTy.copyWith [] p [] s).1.1).here hwf
  have hty := hty.mono hq.size_le
  refine ⟨halike.trans hq.toAlike, hty, fun f hf => hty f ?_⟩
  have hmem : f ∈ ((sig.toTy.copyWith [] p [] s).1.1.freeVars (sig.toTy.copyWith [] p [] s).2).1 :=
    hf
  rw [hfixed, halike.resolve_new hty] at hmem
  exact (Store.mem_addNew.mp hmem).resolve_left List.not_mem_nil

theorem Keeps.openCopy {s : Store} {fixed : List Var} {σ : Session}
    (h : s.Confined fixed σ.store) (sig : Signature) (p : SupplyId) :
    Keeps (liftM (sig.openCopy p)) s fixed σ fun o s' =>
      s'.Covers o.ty ∧ ∀ f ∈ o.fixed, s.size ≤ f.index ∧ f.index < s'.size := by
  obtain ⟨halike, hty, hfixed⟩ := openCopy_spec sig p h.wellFormed
  refine .lift h halike ⟨fun w hw => (hty w hw).2, fun f hf => ⟨?_, (hfixed f hf).2⟩⟩
  exact Nat.le_trans h.size_le (hfixed f hf).1

/-- The environment that the arguments of a call are put into, one by one. -/
theorem Store.Scopes.slots {s : Store} {fixed : List Var} (slot : Nat → String)
    (args : List (Ty × Nat)) (hargs : ∀ q ∈ args, s.Covers q.1) {Γ : Env} (e : Expr)
    (h : s.Scopes Γ fixed) :
    s.Scopes (args.foldl (fun (Γ, e) (t, i) => (Γ.extend (slot i) t, .app e (.var (slot i))))
      (Γ, e)).1 fixed := by
  induction args generalizing Γ e with
  | nil => exact h
  | cons q args ih =>
      refine ih (fun r hr => hargs r (List.mem_cons_of_mem _ hr)) _ ?_
      exact h.extend (hargs q (List.mem_cons_self ..)) _

/-- An application is analysed in an environment that has the opened type and the arguments. -/
theorem Opened.applyTo_scoped {s : Store} {o : Opened} (hty : s.Covers o.ty)
    (hfixed : ∀ f ∈ o.fixed, f.index < s.size) (p : SupplyId) (name : String) {args : List Ty}
    (hargs : ∀ t ∈ args, s.Covers t) :
    ∃ (Γ : Env) (e : Expr), o.applyTo p name args = (do
        let inferred ← e.analyze p Γ o.fixed
        let ret ← p.freshTy
        unify inferred ret
        return ret)
      ∧ s.Scopes Γ o.fixed := by
  refine ⟨_, _, rfl, ?_⟩
  exact Store.Scopes.slots (fun i => s!"{name}#{i}") args.zipIdx
    (fun q hq => hargs q.1 (List.fst_mem_of_mem_zipIdx hq)) (.var s!"{name}#fn")
    ((Store.Scopes.empty hfixed).extend hty s!"{name}#fn")

theorem Keeps.applyTo {s : Store} {fixed : List Var} {σ : Session}
    (h : s.Confined fixed σ.store) {o : Opened} (hty : σ.store.Covers o.ty)
    (hfixed : ∀ f ∈ o.fixed, s.size ≤ f.index ∧ f.index < σ.store.size) (p : SupplyId)
    (name : String) {args : List Ty} (hargs : ∀ t ∈ args, σ.store.Covers t) :
    Keeps (o.applyTo p name args) s fixed σ fun t s' => s.Owns fixed s' t := by
  obtain ⟨Γ, e, heq, hscope⟩ :=
    Opened.applyTo_scoped hty (fun f hf => (hfixed f hf).2) p name hargs
  rw [heq]
  refine (analyze_keeps e h hscope fun f hf => .inr (hfixed f hf).1).bind
    fun inferred σ₁ h₁ hext₁ hinferred => ?_
  refine (Keeps.freshTy h₁ p).bind fun ret σ₂ h₂ hext₂ hret => ?_
  refine (Keeps.unify h₂ (hinferred.extend hext₂) hret).bind fun _ σ₃ h₃ hext₃ _ => ?_
  exact .pure h₃ (hret.extend hext₃)

/-! ## Values -/

mutual

/-- The variables of the types that foreign objects inside the value show without copying. -/
def Value.shared : Value → List Var
  | .list items => sharedAll items
  | .tuple items => sharedAll items
  | .data _ _ fields => sharedAll fields
  | .typed _ _ _ args => sharedAll args
  | .foreign object =>
      match object.description with
      | some d => if d.copied then [] else d.ty.vars
      | none => []
  | _ => []

def Value.sharedAll : List Value → List Var
  | [] => []
  | v :: vs => v.shared ++ sharedAll vs

end

/-- The variables in `vs` are fixed, and are in scope. -/
def Store.Admits (s : Store) (fixed vs : List Var) : Prop := ∀ w ∈ vs, w ∈ fixed ∧ w.index < s.size

theorem Store.Admits.append {s : Store} {fixed vs ws : List Var}
    (h : s.Admits fixed (vs ++ ws)) : s.Admits fixed vs ∧ s.Admits fixed ws :=
  ⟨fun w hw => h w (List.mem_append_left _ hw), fun w hw => h w (List.mem_append_right _ hw)⟩

theorem Keeps.foreign {s : Store} {fixed : List Var} {σ : Session}
    (h : s.Confined fixed σ.store) {object : Foreign}
    (hshared : s.Admits fixed (Value.foreign object).shared) (p : SupplyId) :
    Keeps (liftM (object.typeOf p)) s fixed σ fun t s' => s.Owns fixed s' t := by
  have hrefl := Store.Alike.refl h.wellFormed
  rw [Foreign.typeOf]
  cases hd : object.description with
  | none => exact .lift h hrefl ((Ty.Between.nullary _).owns (Nat.le_refl _))
  | some d =>
      dsimp only
      split
      · exact .copy h d.ty p
      · next hc =>
          have hvars : s.Admits fixed d.ty.vars := by simpa [Value.shared, hd, hc] using hshared
          refine .lift h hrefl ⟨fun w hw => ?_, fun θ φ _ _ hag => Ty.subst_congr fun w hw => ?_⟩
          · exact Nat.lt_of_lt_of_le (hvars w hw).2 h.size_le
          · rw [Subst.patch_of_lt (hvars w hw).2, hag w (hvars w hw).1]

mutual

/-- By induction on the value. Each part starts in a store where all equations since `s` are about
new variables and what the fixed ones stand for, and leaves such a store, whether it succeeds or
fails. The value of its type depends on nothing else either. -/
theorem typeOf_keeps {s : Store} {fixed : List Var} (p : SupplyId) :
    ∀ (v : Value) {σ : Session}, s.Confined fixed σ.store → s.Admits fixed v.shared →
      Keeps (v.typeOf p) s fixed σ fun t s' => s.Owns fixed s' t
  | .unit, σ, h, _ | .bool _, σ, h, _ | .int _, σ, h, _ | .float _, σ, h, _ | .text _, σ, h, _ => by
      rw [Value.typeOf]
      exact .pure h ((Ty.Between.nullary _).owns (Nat.le_refl _))
  | .list [], σ, h, _ => by
      rw [Value.typeOf]
      exact (Keeps.freshTy h p).bind fun t σ₁ h₁ _ ht =>
        .pure h₁ (.con fun u hu => List.mem_singleton.mp hu ▸ ht)
  | .list (v :: vs), σ, h, hshared => by
      rw [Value.typeOf]
      rw [Value.shared, Value.sharedAll] at hshared
      refine (typeOf_keeps p v h hshared.append.1).bind fun elem σ₁ h₁ _ helem => ?_
      refine (agreeWith_keeps p vs h₁ hshared.append.2 helem).bind fun _ σ₂ h₂ hext₂ _ => ?_
      exact .pure h₂ (.con fun u hu => List.mem_singleton.mp hu ▸ helem.extend hext₂)
  | .tuple items, σ, h, hshared => by
      rw [Value.typeOf]
      rw [Value.shared] at hshared
      exact (typesOf_keeps p items h hshared).bind fun ts σ₁ h₁ _ hts => .pure h₁ (.con hts)
  | .data type variant fields, σ, h, hshared => by
      rw [Value.typeOf]
      rw [Value.shared] at hshared
      refine (Keeps.copyAll h _ p (Renaming.between_nil _ _)).bind
        fun ⟨params, m⟩ σ₁ h₁ _ ⟨hparams, hm⟩ => ?_
      refine (fitFields_keeps p _ fields h₁ hshared hm).bind fun _ σ₂ h₂ hext₂ _ => ?_
      exact .pure h₂ (.con fun u hu => (hparams u hu).extend hext₂)
  | .builtin _ arity _ args, σ, h, _ => by
      rw [Value.typeOf]
      exact .unknownFunction h p _
  | .method ref args, σ, h, _ => by
      rw [Value.typeOf]
      exact .unknownFunction h p _
  | .typed _ sig _ [], σ, h, _ => by
      rw [Value.typeOf]
      exact .copy h _ p
  | .typed name sig _ (v :: vs), σ, h, hshared => by
      rw [Value.typeOf]
      rw [Value.shared] at hshared
      refine (Keeps.openCopy h sig p).bind fun o σ₁ h₁ _ ⟨hty, hfixed⟩ => ?_
      refine (typesOf_keeps p (v :: vs) h₁ hshared).bind fun ts σ₂ h₂ hext₂ hts => ?_
      refine .applyTo h₂ (hty.mono hext₂.size_le) (fun f hf => ?_) p name fun t ht =>
        (hts t ht).covers
      exact ⟨(hfixed f hf).1, Nat.lt_of_lt_of_le (hfixed f hf).2 hext₂.size_le⟩
  | .foreign object, σ, h, hshared => by
      rw [Value.typeOf]
      exact .foreign h hshared p

theorem typesOf_keeps {s : Store} {fixed : List Var} (p : SupplyId) :
    ∀ (vs : List Value) {σ : Session}, s.Confined fixed σ.store →
      s.Admits fixed (Value.sharedAll vs) →
      Keeps (Value.typesOf p vs) s fixed σ fun ts s' => ∀ t ∈ ts, s.Owns fixed s' t
  | [], σ, h, _ => by
      rw [Value.typesOf]
      exact .pure h fun _ ht => nomatch ht
  | v :: vs, σ, h, hshared => by
      rw [Value.typesOf]
      rw [Value.sharedAll] at hshared
      refine (typeOf_keeps p v h hshared.append.1).bind fun t σ₁ h₁ _ ht => ?_
      refine (typesOf_keeps p vs h₁ hshared.append.2).bind fun ts σ₂ h₂ hext₂ hts => ?_
      refine .pure h₂ fun u hu => ?_
      rcases List.mem_cons.mp hu with rfl | hu
      · exact ht.extend hext₂
      · exact hts u hu

theorem agreeWith_keeps {s : Store} {fixed : List Var} (p : SupplyId) {elem : Ty} :
    ∀ (vs : List Value) {σ : Session}, s.Confined fixed σ.store →
      s.Admits fixed (Value.sharedAll vs) → s.Owns fixed σ.store elem →
      Keeps (Value.agreeWith p elem vs) s fixed σ fun _ _ => True
  | [], σ, h, _, _ => by
      rw [Value.agreeWith]
      exact .pure h trivial
  | v :: vs, σ, h, hshared, helem => by
      rw [Value.agreeWith]
      rw [Value.sharedAll] at hshared
      refine (typeOf_keeps p v h hshared.append.1).bind fun t σ₁ h₁ hext₁ ht => ?_
      have helem₁ := helem.extend hext₁
      refine (Keeps.unify h₁ helem₁ ht).bind fun _ σ₂ h₂ hext₂ _ => ?_
      exact agreeWith_keeps p vs h₂ hshared.append.2 (helem₁.extend hext₂)

theorem fitFields_keeps {s : Store} {fixed : List Var} (p : SupplyId) :
    ∀ (templates : List Ty) (vs : List Value) {σ : Session} {m : Renaming},
      s.Confined fixed σ.store → s.Admits fixed (Value.sharedAll vs) →
      m.Between s.size σ.store.size →
      Keeps (Value.fitFields p m templates vs) s fixed σ fun _ _ => True
  | [], vs, σ, m, h, _, _ => by
      simp only [Value.fitFields]
      exact .pure h trivial
  | template :: templates, [], σ, m, h, _, _ => by
      simp only [Value.fitFields]
      exact .pure h trivial
  | template :: templates, v :: vs, σ, m, h, hshared, hm => by
      rw [Value.fitFields]
      rw [Value.sharedAll] at hshared
      refine (Keeps.copyWith h template p hm).bind
        fun ⟨expected, m'⟩ σ₁ h₁ _ ⟨hexpected, hm'⟩ => ?_
      refine (typeOf_keeps p v h₁ hshared.append.1).bind fun t σ₂ h₂ hext₂ ht => ?_
      refine (Keeps.unify h₂ (hexpected.extend hext₂) ht).bind fun _ σ₃ h₃ hext₃ _ => ?_
      refine fitFields_keeps p templates vs h₃ hshared.append.2 fun u w hw => ?_
      exact ⟨(hm' u w hw).1, Nat.lt_of_lt_of_le (hm' u w hw).2 (hext₂.trans hext₃).size_le⟩

end

end Overload
