import Overload.Proofs.PartialApplication
import Overload.Proofs.Reachability
import Overload.Values.Data

/-!
# Equality of values

`Value.equal` compares data by content. It is symmetric and transitive, and a value equals itself
unless it has a part that equals nothing: NaN, a function or a foreign object
(`value_equality`). `Value.Same` states what equality asks for, case by case, and everything here
goes by its rules.

What equality overlooks, inference overlooks as well: the words of numbers and the contents of
texts. Two data types with one constructor could differ in their fields, but each declaration has a
constructor of its own, so this does not happen (`DataType.Declared.eq_of_con_eq`). Equal values
over declared types are therefore typed by the very same steps (`Same.typeOf_eq`). From different
sessions the types that come out are variants, provided that the types which the values carry are
read alike in both (`Inhabits.of_resolve_eq`).
-/

namespace Overload

namespace Value

/-! ## Parts -/

/-- The values directly inside data. -/
def items : Value → List Value
  | .list vs => vs
  | .tuple vs => vs
  | .data _ _ fields => fields
  | _ => []

/-- `u` is the value itself, or stands in it at some depth. -/
inductive PartOf (u : Value) : Value → Prop
  | self : PartOf u u
  | item {v w : Value} : w ∈ v.items → PartOf u w → PartOf u v

/-- The value is not one of those that equal nothing. -/
def Comparable : Value → Prop
  | .float x => x.isNaN = false
  | .builtin .. | .typed .. | .method .. | .foreign _ => False
  | _ => True

/-! ## The rules of equality -/

mutual

inductive Same : Value → Value → Prop
  | unit : Same .unit .unit
  | bool (b : Bool) : Same (.bool b) (.bool b)
  | int (n : Int64) : Same (.int n) (.int n)
  | float {x y : Binary64} : x.equal y = true → Same (.float x) (.float y)
  | text (text : String) : Same (.text text) (.text text)
  | list {as bs : List Value} : SameAll as bs → Same (.list as) (.list bs)
  | tuple {as bs : List Value} : SameAll as bs → Same (.tuple as) (.tuple bs)
  | data {s t : DataType} {i : Fin s.variants.length} {j : Fin t.variants.length}
      {as bs : List Value} : s.con = t.con → i.val = j.val → SameAll as bs →
      Same (.data s i as) (.data t j bs)

inductive SameAll : List Value → List Value → Prop
  | nil : SameAll [] []
  | cons {a b : Value} {as bs : List Value} : Same a b → SameAll as bs →
      SameAll (a :: as) (b :: bs)

end

theorem same_of_equal : (∀ a b : Value, a.equal b = true → a.Same b)
    ∧ ∀ as bs : List Value, equalAll as bs = true → SameAll as bs := by
  apply equal.mutual_induct
  case case1 => exact fun _ => .unit
  case case2 =>
    intro a b h
    obtain rfl : a = b := by simpa [equal] using h
    exact .bool a
  case case3 =>
    intro a b h
    obtain rfl : a = b := by simpa [equal] using h
    exact .int a
  case case4 =>
    intro x y h
    exact .float (by simpa [equal] using h)
  case case5 =>
    intro a b h
    obtain rfl : a = b := by simpa [equal] using h
    exact .text a
  case case6 =>
    intro as bs ih h
    exact .list (ih (by simpa [equal] using h))
  case case7 =>
    intro as bs ih h
    exact .tuple (ih (by simpa [equal] using h))
  case case8 =>
    intro s i as t j bs ih h
    obtain ⟨⟨hcon, hvariant⟩, hfields⟩ : (s.con = t.con ∧ i.val = j.val) ∧ equalAll as bs = true :=
      by simpa [equal] using h
    exact .data hcon hvariant (ih hfields)
  case case9 =>
    intro a b h₁ h₂ h₃ h₄ h₅ h₆ h₇ h₈ h
    have hfalse : a.equal b = false := by rw [equal] <;> assumption
    cases hfalse.symm.trans h
  case case10 => exact fun _ => .nil
  case case11 =>
    intro a as b bs ih ihs h
    obtain ⟨hhead, htail⟩ : a.equal b = true ∧ equalAll as bs = true := by
      simpa [equalAll] using h
    exact .cons (ih hhead) (ihs htail)
  case case12 =>
    intro as bs h₁ h₂ h
    have hfalse : equalAll as bs = false := by rw [equalAll] <;> assumption
    cases hfalse.symm.trans h

mutual

theorem Same.equal : ∀ {a b : Value}, a.Same b → a.equal b = true
  | _, _, .unit => rfl
  | _, _, .bool b => by simp [Value.equal]
  | _, _, .int n => by simp [Value.equal]
  | _, _, .float h => by simpa [Value.equal] using h
  | _, _, .text s => by simp [Value.equal]
  | _, _, .list h => by simpa [Value.equal] using h.equalAll
  | _, _, .tuple h => by simpa [Value.equal] using h.equalAll
  | _, _, .data hcon hvariant h => by simp [Value.equal, hcon, hvariant, h.equalAll]

theorem SameAll.equalAll : ∀ {as bs : List Value}, SameAll as bs → equalAll as bs = true
  | _, _, .nil => rfl
  | _, _, .cons h hs => by simp [Value.equalAll, h.equal, hs.equalAll]

end

theorem equal_eq_true_iff {a b : Value} : a.equal b = true ↔ a.Same b :=
  ⟨same_of_equal.1 a b, Same.equal⟩

/-! ## A partial equivalence -/

mutual

theorem Same.symm : ∀ {a b : Value}, a.Same b → b.Same a
  | _, _, .unit => .unit
  | _, _, .bool b => .bool b
  | _, _, .int n => .int n
  | _, _, .float h => .float (by rwa [Binary64.equal_comm])
  | _, _, .text s => .text s
  | _, _, .list h => .list h.symm
  | _, _, .tuple h => .tuple h.symm
  | _, _, .data hcon hvariant h => .data hcon.symm hvariant.symm h.symm

theorem SameAll.symm : ∀ {as bs : List Value}, SameAll as bs → SameAll bs as
  | _, _, .nil => .nil
  | _, _, .cons h hs => .cons h.symm hs.symm

end

mutual

theorem Same.trans : ∀ {a b c : Value}, a.Same b → b.Same c → a.Same c
  | _, _, _, .unit, .unit => .unit
  | _, _, _, .bool b, .bool _ => .bool b
  | _, _, _, .int n, .int _ => .int n
  | _, _, _, .float h, .float h' => .float (Binary64.equal_trans h h')
  | _, _, _, .text s, .text _ => .text s
  | _, _, _, .list h, .list h' => .list (h.trans h')
  | _, _, _, .tuple h, .tuple h' => .tuple (h.trans h')
  | _, _, _, .data hcon hvariant h, .data hcon' hvariant' h' =>
      .data (hcon.trans hcon') (hvariant.trans hvariant') (h.trans h')

theorem SameAll.trans : ∀ {as bs cs : List Value}, SameAll as bs → SameAll bs cs → SameAll as cs
  | _, _, _, .nil, .nil => .nil
  | _, _, _, .cons h hs, .cons h' hs' => .cons (h.trans h') (hs.trans hs')

end

/-! ## What equals itself -/

theorem SameAll.same_of_mem {vs : List Value} (h : SameAll vs vs) {w : Value} (hw : w ∈ vs) :
    w.Same w := by
  induction vs with
  | nil => cases hw
  | cons v vs ih =>
      cases h with
      | cons hv hvs =>
          rcases List.mem_cons.mp hw with rfl | hw
          · exact hv
          · exact ih hvs hw

/-- The parts of a value that equals itself do so as well. -/
theorem PartOf.same {u v : Value} (hu : u.PartOf v) (h : v.Same v) : u.Same u := by
  induction hu with
  | self => exact h
  | item hw _ ih =>
      refine ih ?_
      cases h with
      | list h => exact h.same_of_mem hw
      | tuple h => exact h.same_of_mem hw
      | data _ _ h => exact h.same_of_mem hw
      | _ => cases hw

theorem Same.comparable {v w : Value} (h : v.Same w) : v.Comparable := by
  cases h with
  | @float x y h =>
      rw [Binary64.equal, Bool.and_eq_true, Bool.and_eq_true, Bool.not_eq_true'] at h
      exact h.1.1
  | _ => trivial

mutual

theorem same_self : ∀ v : Value, (∀ u : Value, u.PartOf v → u.Comparable) → v.Same v
  | .unit, _ => .unit
  | .bool b, _ => .bool b
  | .int n, _ => .int n
  | .float x, h => .float <| by
      have hx : x.isNaN = false := h _ .self
      rw [Binary64.equal_self, hx]
      rfl
  | .text s, _ => .text s
  | .list vs, h => .list (sameAll_self vs fun _ hw u hu => h u (.item hw hu))
  | .tuple vs, h => .tuple (sameAll_self vs fun _ hw u hu => h u (.item hw hu))
  | .data _ _ vs, h => .data rfl rfl (sameAll_self vs fun _ hw u hu => h u (.item hw hu))
  | .builtin .., h | .typed .., h | .method .., h | .foreign _, h => (h _ .self).elim

theorem sameAll_self : ∀ vs : List Value,
    (∀ w ∈ vs, ∀ u : Value, u.PartOf w → u.Comparable) → SameAll vs vs
  | [], _ => .nil
  | v :: vs, h => .cons (same_self v (h v List.mem_cons_self))
      (sameAll_self vs fun w hw => h w (List.mem_cons_of_mem v hw))

end

theorem same_self_iff {v : Value} : v.Same v ↔ ∀ u : Value, u.PartOf v → u.Comparable :=
  ⟨fun h _ hu => (hu.same h).comparable, same_self v⟩

theorem Same.con_eq {a b : Value} (h : a.Same b) : a.con = b.con := by
  cases h with
  | data hcon _ _ => exact hcon
  | _ => rfl

mutual

theorem Same.native : ∀ {a b : Value}, a.Same b → a.Native
  | _, _, .list h | _, _, .tuple h | _, _, .data _ _ h => by
      rw [Native]
      exact h.nativeAll
  | _, _, .unit | _, _, .bool _ | _, _, .int _ | _, _, .float _ | _, _, .text _ => by
      simp [Native]

theorem SameAll.nativeAll : ∀ {as bs : List Value}, SameAll as bs → NativeAll as
  | _, _, .nil => by simp [NativeAll]
  | _, _, .cons h hs => by
      rw [NativeAll]
      exact ⟨h.native, hs.nativeAll⟩

end

end Value

/-! ## Declared data types -/

namespace DataType

/-- The data types that have been declared on the way to a session. In between anything may have
happened but that constructors were taken back. -/
inductive Declared : Session → List DataType → Prop
  | start (σ : Session) : Declared σ []
  | declare {σ : Session} {ds : List DataType} (name : String) (arity : Nat)
      (variants : List Ty → List Variant) : Declared σ ds →
      Declared (declare name arity variants σ).2 ((declare name arity variants σ).1 :: ds)
  | later {σ σ' : Session} {ds : List DataType} : Declared σ ds → σ.declared ≤ σ'.declared →
      Declared σ' ds

theorem declare_spec (name : String) (arity : Nat) (variants : List Ty → List Variant)
    (σ : Session) : (declare name arity variants σ).1.con = .declared σ.declared name
      ∧ (declare name arity variants σ).2.declared = σ.declared + 1 := ⟨rfl, rfl⟩

namespace Declared

variable {σ : Session} {ds : List DataType}

/-- The number of a declared constructor has been counted. -/
theorem exists_lt (h : Declared σ ds) : ∀ d ∈ ds, ∃ i name,
    d.con = .declared i name ∧ i < σ.declared := by
  induction h with
  | start σ =>
      intro d hd
      cases hd
  | @declare σ ds name arity variants _ ih =>
      obtain ⟨hcon, hcount⟩ := declare_spec name arity variants σ
      rw [List.forall_mem_cons, hcount]
      refine ⟨⟨_, _, hcon, Nat.lt_succ_self _⟩, fun d hd => ?_⟩
      obtain ⟨i, name, hd, hi⟩ := ih d hd
      exact ⟨i, name, hd, Nat.lt_succ_of_lt hi⟩
  | later _ hle ih =>
      intro d hd
      obtain ⟨i, name, hd, hi⟩ := ih d hd
      exact ⟨i, name, hd, Nat.lt_of_lt_of_le hi hle⟩

/-- So a new one differs from all before, and a constructor belongs to one declaration. -/
theorem eq_of_con_eq (h : Declared σ ds) {d d' : DataType} (hd : d ∈ ds) (hd' : d' ∈ ds)
    (hcon : d.con = d'.con) : d = d' := by
  induction h with
  | start σ => cases hd
  | later _ _ ih => exact ih hd hd'
  | @declare σ ds name arity variants hds ih =>
      have hnew : ∀ e ∈ ds, e.con ≠ (DataType.declare name arity variants σ).1.con := by
        intro e he heq
        obtain ⟨i, _, hcon, hi⟩ := hds.exists_lt e he
        rw [hcon, (declare_spec name arity variants σ).1] at heq
        cases heq
        exact Nat.lt_irrefl _ hi
      rcases List.mem_cons.mp hd with rfl | hd
      · rcases List.mem_cons.mp hd' with rfl | hd'
        · rfl
        · exact absurd hcon.symm (hnew d' hd')
      · rcases List.mem_cons.mp hd' with rfl | hd'
        · exact absurd hcon (hnew d hd)
        · exact ih hd hd'

end Declared

end DataType

namespace Value

/-- The data types of all parts are among the given ones. -/
def DataIn (ds : List DataType) (v : Value) : Prop :=
  ∀ {type variant fields}, (Value.data type variant fields).PartOf v → type ∈ ds

theorem DataIn.item {ds : List DataType} {v : Value} (h : v.DataIn ds) :
    ∀ w ∈ v.items, w.DataIn ds := fun _ hw _ _ _ hpart => h (.item hw hpart)

/-! ## Inference on equal values -/

mutual

/-- Equal values are typed by the same steps. -/
theorem Same.typeOf_eq {σ : Session} {ds : List DataType} (hds : DataType.Declared σ ds)
    (p : SupplyId) : ∀ {a b : Value}, a.Same b → a.DataIn ds → b.DataIn ds →
      a.typeOf p = b.typeOf p
  | _, _, .unit, _, _ | _, _, .bool _, _, _ | _, _, .int _, _, _ | _, _, .float _, _, _
  | _, _, .text _, _, _ => by simp only [typeOf]
  | _, _, .list .nil, _, _ => rfl
  | _, _, .list (.cons h hs), ha, hb => by
      obtain ⟨ha, has⟩ := List.forall_mem_cons.mp ha.item
      obtain ⟨hb, hbs⟩ := List.forall_mem_cons.mp hb.item
      simp only [typeOf, h.typeOf_eq hds p ha hb, fun elem => hs.agreeWith_eq hds p elem has hbs]
  | _, _, .tuple h, ha, hb => by simp only [typeOf, h.typesOf_eq hds p ha.item hb.item]
  | _, _, .data hcon hvariant h, ha, hb => by
      obtain rfl := hds.eq_of_con_eq (ha .self) (hb .self) hcon
      obtain rfl := Fin.ext hvariant
      simp only [typeOf, fun m templates => h.fitFields_eq hds p m templates ha.item hb.item]

theorem SameAll.typesOf_eq {σ : Session} {ds : List DataType} (hds : DataType.Declared σ ds)
    (p : SupplyId) : ∀ {as bs : List Value}, SameAll as bs → (∀ v ∈ as, v.DataIn ds) →
      (∀ v ∈ bs, v.DataIn ds) → typesOf p as = typesOf p bs
  | _, _, .nil, _, _ => rfl
  | _, _, .cons h hs, has, hbs => by
      obtain ⟨ha, has⟩ := List.forall_mem_cons.mp has
      obtain ⟨hb, hbs⟩ := List.forall_mem_cons.mp hbs
      simp only [typesOf, h.typeOf_eq hds p ha hb, hs.typesOf_eq hds p has hbs]

theorem SameAll.agreeWith_eq {σ : Session} {ds : List DataType} (hds : DataType.Declared σ ds)
    (p : SupplyId) (elem : Ty) : ∀ {as bs : List Value}, SameAll as bs →
      (∀ v ∈ as, v.DataIn ds) → (∀ v ∈ bs, v.DataIn ds) →
      agreeWith p elem as = agreeWith p elem bs
  | _, _, .nil, _, _ => rfl
  | _, _, .cons h hs, has, hbs => by
      obtain ⟨ha, has⟩ := List.forall_mem_cons.mp has
      obtain ⟨hb, hbs⟩ := List.forall_mem_cons.mp hbs
      simp only [agreeWith, h.typeOf_eq hds p ha hb, hs.agreeWith_eq hds p elem has hbs]

theorem SameAll.fitFields_eq {σ : Session} {ds : List DataType} (hds : DataType.Declared σ ds)
    (p : SupplyId) (m : Renaming) (templates : List Ty) :
    ∀ {as bs : List Value}, SameAll as bs → (∀ v ∈ as, v.DataIn ds) → (∀ v ∈ bs, v.DataIn ds) →
      fitFields p m templates as = fitFields p m templates bs
  | _, _, .nil, _, _ => rfl
  | _, _, .cons h hs, has, hbs => by
      obtain ⟨ha, has⟩ := List.forall_mem_cons.mp has
      obtain ⟨hb, hbs⟩ := List.forall_mem_cons.mp hbs
      cases templates with
      | nil => simp only [fitFields]
      | cons template templates =>
          simp only [fitFields, h.typeOf_eq hds p ha hb,
            fun m => hs.fitFields_eq hds p m templates has hbs]

end

end Value

/-! ## Two sessions -/

theorem Store.resolve_congr {s s' : Store} {t : Ty}
    (h : ∀ w ∈ t.vars, s'.resolve (.var w) = s.resolve (.var w)) : s'.resolve t = s.resolve t := by
  rw [resolve_eq_subst s' t, resolve_eq_subst s t]
  exact Ty.subst_congr h

theorem Value.mem_varsAll {v : Value} {vs : List Value} (h : v ∈ vs) :
    ∀ w ∈ v.vars, w ∈ varsAll vs := by
  intro w hw
  rw [varsAll_eq]
  exact List.mem_flatMap.mpr ⟨v, h, hw⟩

/-- What types a value has depends on the store through the types that the value carries. -/
theorem Inhabits.of_resolve_eq {s s' : Store} {v : Value} {t : Ty} (h : Inhabits s v t)
    (hv : ∀ w ∈ v.vars, s'.resolve (.var w) = s.resolve (.var w)) : Inhabits s' v t := by
  induction h with
  | unit => exact .unit
  | bool => exact .bool
  | int => exact .int
  | float => exact .float
  | text => exact .text
  | list _ ih =>
      rw [Value.vars] at hv
      exact .list fun u hu => ih u hu fun w hw => hv w (Value.mem_varsAll hu w hw)
  | tuple hlen _ ih =>
      rw [Value.vars] at hv
      exact .tuple hlen fun q hq => ih q hq fun w hw =>
        hv w (Value.mem_varsAll (List.of_mem_zip hq).1 w hw)
  | @data type variant fields ψ _ ih =>
      rw [Value.vars] at hv
      have htype : ∀ w ∈ type.vars, s'.resolve (.var w) = s.resolve (.var w) :=
        fun w hw => hv w (List.mem_append_left _ hw)
      have hparams : type.params.map (fun v => (s.resolve (.var v)).subst ψ)
          = type.params.map fun v => (s'.resolve (.var v)).subst ψ :=
        List.map_congr_left fun v hmem => by rw [htype v (List.mem_append_left _ hmem)]
      rw [hparams]
      refine .data ψ fun q hq => ?_
      obtain ⟨hfield, htemplate⟩ := List.of_mem_zip hq
      have hresolve : s'.resolve q.2 = s.resolve q.2 := Store.resolve_congr fun w hw =>
        htype w (List.mem_append_right _ (List.mem_flatMap.mpr
          ⟨_, List.get_mem type.variants variant, List.mem_flatMap.mpr ⟨q.2, htemplate, hw⟩⟩))
      rw [hresolve]
      exact ih q hq fun w hw => hv w (List.mem_append_right _ (Value.mem_varsAll hfield w hw))
  | builtin hlen => exact .builtin hlen
  | method hlen => exact .method hlen
  | typed ψ hlen _ heq ih =>
      rw [Value.vars] at hv
      refine .typed ψ hlen (fun q hq => ih q hq fun w hw => ?_) ?_
      · exact hv w (List.mem_append_right _ (Value.mem_varsAll (List.of_mem_zip hq).1 w hw))
      · have hsig := fun w hw => hv w (List.mem_append_left _ (List.mem_append_left _ hw))
        rw [Store.resolve_congr hsig]
        exact heq

/-- A value has the same principal type in two sessions that read its types alike. -/
theorem Value.typeOf_variant {v : Value} {σ τ : Session} (hσ : σ.store.WellFormed)
    (hτ : τ.store.WellFormed) (hvσ : v.Plain σ.store) (hvτ : v.Plain τ.store)
    (hread : ∀ w ∈ v.vars, τ.store.resolve (.var w) = σ.store.resolve (.var w)) (p q : SupplyId) :
    ((∃ t σ', v.typeOf p σ = .ok t σ') ↔ ∃ u τ', v.typeOf q τ = .ok u τ')
      ∧ ∀ t σ' u τ', v.typeOf p σ = .ok t σ' → v.typeOf q τ = .ok u τ' →
          (σ'.store.resolve t).Variant (τ'.store.resolve u) := by
  have hsame : Inhabits τ.store v = Inhabits σ.store v := by
    funext u
    exact propext ⟨fun h => h.of_resolve_eq fun w hw => (hread w hw).symm,
      fun h => h.of_resolve_eq hread⟩
  have hp := principal_typeOf (p := p) hσ hvσ
  have hq := principal_typeOf (p := q) hτ hvτ
  rw [hsame] at hq
  refine ⟨hp.exists_ok_iff.trans hq.exists_ok_iff.symm, ?_⟩
  intro t σ' u τ' ht hu
  exact hp.variant hq ht hu

/-- Equality of values is symmetric and transitive, and a value equals itself exactly if none of its
parts is NaN, a function or a foreign object. Equal values are dispatched on the same constructor.
If their data types come from declarations, they are typed by the same steps; and from any two
sessions that read the declared types alike, either both have a type, the same up to the names of
its variables, or none has. -/
theorem value_equality :
    (∀ a b : Value, a.equal b = true → b.equal a = true)
      ∧ (∀ a b c : Value, a.equal b = true → b.equal c = true → a.equal c = true)
      ∧ (∀ a : Value, a.equal a = true ↔ ∀ u : Value, u.PartOf a → u.Comparable)
      ∧ (∀ a b : Value, a.equal b = true → a.con = b.con)
      ∧ ∀ (σ₀ : Session) (ds : List DataType) (a b : Value), DataType.Declared σ₀ ds →
          a.DataIn ds → b.DataIn ds → a.equal b = true →
          (∀ p : SupplyId, a.typeOf p = b.typeOf p)
            ∧ ∀ (p q : SupplyId) (σ τ : Session), σ.store.WellFormed → τ.store.WellFormed →
                a.InScope σ.store → a.InScope τ.store →
                (∀ w ∈ a.vars, τ.store.resolve (.var w) = σ.store.resolve (.var w)) →
                ((∃ t σ', a.typeOf p σ = .ok t σ') ↔ ∃ u τ', b.typeOf q τ = .ok u τ')
                  ∧ ∀ t σ' u τ', a.typeOf p σ = .ok t σ' → b.typeOf q τ = .ok u τ' →
                      (σ'.store.resolve t).Variant (τ'.store.resolve u) := by
  simp only [Value.equal_eq_true_iff]
  refine ⟨fun a b => .symm, fun a b c => .trans, fun a => Value.same_self_iff,
    fun a b h => h.con_eq, fun σ₀ ds a b hds ha hb hab => ?_⟩
  have heq := fun p => hab.typeOf_eq hds p ha hb
  refine ⟨heq, fun p q σ τ hσ hτ hscopeσ hscopeτ hread => ?_⟩
  rw [← heq q]
  exact Value.typeOf_variant hσ hτ ⟨hscopeσ, hab.native⟩ ⟨hscopeτ, hab.native⟩ hread p q

/-- Both zeros in a list, as a field of a declared type with one parameter: different values that
are equal, typed one after the other. -/
theorem value_equality_zeros :
    let made := DataType.declare "Maybe" 1 (fun ps => [⟨"Nothing", []⟩, ⟨"Just", ps⟩]) {}
    let just (x : Binary64) : Value := .data made.1 ⟨1, by decide⟩ [.list [.float x]]
    let a := just ⟨0⟩
    let b := just ⟨Binary64.signBit⟩
    DataType.Declared made.2 [made.1] ∧ a.DataIn [made.1] ∧ b.DataIn [made.1]
      ∧ a.equal b = true ∧ a.con = b.con ∧ made.2.store.WellFormed ∧ a.InScope made.2.store
      ∧ ∃ t σ, a.typeOf 0 made.2 = .ok t σ
        ∧ ∃ u τ, b.typeOf 0 σ = .ok u τ
          ∧ (σ.store.resolve t).Variant (τ.store.resolve u) := by
  intro made just a b
  have hmade : DataType.Declared made.2 [made.1] := .declare _ _ _ (.start {})
  have hdata : ∀ x, (just x).DataIn [made.1] := by
    intro x type variant fields hpart
    cases hpart with
    | self => exact List.mem_singleton.mpr rfl
    | item hw hpart =>
        obtain rfl := List.mem_singleton.mp hw
        cases hpart with
        | item hw hpart =>
            obtain rfl := List.mem_singleton.mp hw
            cases hpart with
            | item hw _ => cases hw
  have hab : a.equal b = true := by decide +kernel
  have hs : made.2.store.WellFormed := by
    refine Store.wellFormed_of_unbound fun v => ?_
    rcases v with ⟨_ | n⟩ <;> rfl
  have hscope : a.InScope made.2.store := by
    show ∀ w ∈ a.vars, w.index < made.2.store.size
    decide +kernel
  have hrun : (EStateM.run' (a.typeOf 0) made.2).isSome = true := by decide +kernel
  delta EStateM.run' EStateM.run at hrun
  obtain ⟨-, -, -, hcon, htyping⟩ := value_equality
  obtain ⟨-, hvariant⟩ := htyping made.2 [made.1] a b hmade (hdata _) (hdata _) hab
  have hplain : a.Plain made.2.store := ⟨hscope, (Value.equal_eq_true_iff.mp hab).native⟩
  cases ht : a.typeOf 0 made.2 with
  | error err σ =>
      rw [ht] at hrun
      cases hrun
  | ok t σ =>
      obtain ⟨⟨hconf, -⟩, -⟩ :=
        Ends.of_ok (typeOf_keeps 0 a (.refl hs []) (hplain.admits _ _)) ht
      have hread : ∀ w ∈ a.vars, σ.store.resolve (.var w) = made.2.store.resolve (.var w) :=
        fun w hw => hconf.resolve_eq hs (Store.covers_var.mpr (hscope w hw))
      obtain ⟨hiff, hsame⟩ := hvariant 0 0 made.2 σ hs hconf.wellFormed hscope
        (hscope.mono hconf.size_le) hread
      obtain ⟨u, τ, hu⟩ := hiff.mp ⟨t, σ, ht⟩
      exact ⟨hmade, hdata _, hdata _, hab, hcon a b hab, hs, hscope, t, σ, rfl, u, τ, hu,
        hsame t σ u τ ht hu⟩

end Overload
