import Mathlib.Data.List.Forall2
import Overload.Proofs.ValueTypes

/-!
# The types that a value has

`Inhabits s v t` says that `v` has type `t`, by rules and without inference. A store comes in only
where a value carries types that were declared: these are read with all links followed, and their
variables may be instantiated. A function with a signature has the types that are left of an
instance of the signature once the arguments that it holds are taken off; of one without a
signature only the number of arguments is known. Foreign objects have no rule.

A store that has more equations leaves fewer instances, so types are lost but never gained on the
way (`Inhabits.of_extends`).
-/

namespace Overload

/-! ## Variables of a value -/

/-- The variables of the declared type, and those under a constraint. -/
def Signature.vars (sig : Signature) : List Var :=
  sig.toTy.vars ++ sig.constraints.map Constraint.var

def DataType.vars (d : DataType) : List Var :=
  d.params ++ d.variants.flatMap fun variant => variant.fields.flatMap Ty.vars

mutual

/-- The variables of all types that the value carries. -/
def Value.vars : Value → List Var
  | .list items => varsAll items
  | .tuple items => varsAll items
  | .data type _ fields => type.vars ++ varsAll fields
  | .builtin _ _ _ args => varsAll args
  | .typed _ sig _ args => sig.vars ++ varsAll args
  | .method _ args => varsAll args
  | .foreign object =>
      match object.description with
      | some d => d.ty.vars
      | none => []
  | _ => []

def Value.varsAll : List Value → List Var
  | [] => []
  | v :: vs => v.vars ++ varsAll vs

end

theorem Value.varsAll_eq (vs : List Value) : Value.varsAll vs = vs.flatMap Value.vars := by
  induction vs with
  | nil => rfl
  | cons v vs ih => rw [Value.varsAll, ih, List.flatMap_cons]

/-- Every variable of the value has a cell. -/
def Value.InScope (s : Store) (v : Value) : Prop := ∀ w ∈ v.vars, w.index < s.size

namespace Value.InScope

variable {s : Store}

theorem mono {s' : Store} {v : Value} (h : v.InScope s) (hle : s.size ≤ s'.size) : v.InScope s' :=
  fun w hw => Nat.lt_of_lt_of_le (h w hw) hle

theorem of_varsAll {vs : List Value} (h : ∀ w ∈ Value.varsAll vs, w.index < s.size) :
    ∀ v ∈ vs, v.InScope s := by
  intro v hv w hw
  rw [Value.varsAll_eq] at h
  exact h w (List.mem_flatMap.mpr ⟨v, hv, hw⟩)

theorem list {items : List Value} (h : (Value.list items).InScope s) :
    ∀ v ∈ items, v.InScope s :=
  of_varsAll fun w hw => h w (by rwa [Value.vars])

theorem tuple {items : List Value} (h : (Value.tuple items).InScope s) :
    ∀ v ∈ items, v.InScope s :=
  of_varsAll fun w hw => h w (by rwa [Value.vars])

section data

variable {type : DataType} {variant : Fin type.variants.length} {vs : List Value}

theorem params (h : (Value.data type variant vs).InScope s) :
    ∀ v ∈ type.params, s.Covers (.var v) := by
  intro v hv
  refine Store.covers_var.mpr (h v ?_)
  rw [Value.vars, DataType.vars]
  exact List.mem_append_left _ (List.mem_append_left _ hv)

theorem templates (h : (Value.data type variant vs).InScope s) :
    ∀ t ∈ (type.variants.get variant).fields, s.Covers t := by
  intro t ht w hw
  refine h w ?_
  rw [Value.vars, DataType.vars]
  refine List.mem_append_left _ (List.mem_append_right _ (List.mem_flatMap.mpr ?_))
  exact ⟨_, List.get_mem type.variants variant, List.mem_flatMap.mpr ⟨t, ht, hw⟩⟩

theorem fields (h : (Value.data type variant vs).InScope s) : ∀ v ∈ vs, v.InScope s :=
  of_varsAll fun w hw => h w (by rw [Value.vars]; exact List.mem_append_right _ hw)

end data

section typed

variable {name : String} {sig : Signature} {code : Code} {vs : List Value}

theorem signature (h : (Value.typed name sig code vs).InScope s) :
    ∀ w ∈ sig.vars, w.index < s.size :=
  fun w hw => h w (by rw [Value.vars]; exact List.mem_append_left _ hw)

theorem args (h : (Value.typed name sig code vs).InScope s) : ∀ v ∈ vs, v.InScope s :=
  of_varsAll fun w hw => h w (by rw [Value.vars]; exact List.mem_append_right _ hw)

end typed

end Value.InScope

theorem Signature.covers_toTy {s : Store} {sig : Signature}
    (h : ∀ w ∈ sig.vars, w.index < s.size) : s.Covers sig.toTy :=
  fun w hw => h w (List.mem_append_left _ hw)

/-! ## Values without foreign parts -/

mutual

/-- No part that typing looks at is a foreign object. -/
def Value.Native : Value → Prop
  | .list items => NativeAll items
  | .tuple items => NativeAll items
  | .data _ _ fields => NativeAll fields
  | .typed _ _ _ args => NativeAll args
  | .foreign _ => False
  | _ => True

def Value.NativeAll : List Value → Prop
  | [] => True
  | v :: vs => v.Native ∧ NativeAll vs

end

theorem Value.nativeAll_iff {vs : List Value} : Value.NativeAll vs ↔ ∀ v ∈ vs, v.Native := by
  induction vs with
  | nil => simp [Value.NativeAll]
  | cons v vs ih => rw [Value.NativeAll, ih, List.forall_mem_cons]

mutual

theorem Value.Native.shared_eq : ∀ {v : Value}, v.Native → v.shared = []
  | .list items, h | .tuple items, h | .data _ _ items, h | .typed _ _ _ items, h => by
      rw [Value.Native] at h
      rw [Value.shared]
      exact NativeAll.sharedAll_eq h
  | .unit, _ | .bool _, _ | .int _, _ | .float _, _ | .text _, _ | .builtin .., _
  | .method .., _ => by rw [Value.shared] <;> simp
  | .foreign _, h => by
      rw [Value.Native] at h
      exact h.elim

theorem Value.NativeAll.sharedAll_eq : ∀ {vs : List Value}, NativeAll vs → sharedAll vs = []
  | [], _ => by rw [Value.sharedAll]
  | v :: vs, h => by
      rw [Value.NativeAll] at h
      rw [Value.sharedAll, Native.shared_eq h.1, NativeAll.sharedAll_eq h.2]
      rfl

end

/-- A value whose variables are in scope and whose types are all copied when it is typed. -/
structure Value.Plain (s : Store) (v : Value) : Prop where
  inScope : v.InScope s
  native : v.Native

namespace Value.Plain

variable {s : Store}

theorem mono {s' : Store} {v : Value} (h : v.Plain s) (hle : s.size ≤ s'.size) : v.Plain s' :=
  ⟨h.inScope.mono hle, h.native⟩

theorem admits {v : Value} (h : v.Plain s) (s' : Store) (fixed : List Var) :
    s'.Admits fixed v.shared := by
  rw [h.native.shared_eq]
  exact fun _ hw => nomatch hw

theorem admitsAll {vs : List Value} (h : ∀ v ∈ vs, v.Plain s) (s' : Store) (fixed : List Var) :
    s'.Admits fixed (Value.sharedAll vs) := by
  rw [(Value.nativeAll_iff.mpr fun v hv => (h v hv).native).sharedAll_eq]
  exact fun _ hw => nomatch hw

theorem list {items : List Value} (h : (Value.list items).Plain s) : ∀ v ∈ items, v.Plain s :=
  fun v hv => ⟨h.inScope.list v hv, Value.nativeAll_iff.mp (by simpa [Native] using h.native) v hv⟩

theorem tuple {items : List Value} (h : (Value.tuple items).Plain s) : ∀ v ∈ items, v.Plain s :=
  fun v hv => ⟨h.inScope.tuple v hv, Value.nativeAll_iff.mp (by simpa [Native] using h.native) v hv⟩

theorem fields {type : DataType} {variant : Fin type.variants.length} {vs : List Value}
    (h : (Value.data type variant vs).Plain s) : ∀ v ∈ vs, v.Plain s :=
  fun v hv =>
    ⟨h.inScope.fields v hv, Value.nativeAll_iff.mp (by simpa [Native] using h.native) v hv⟩

theorem args {name : String} {sig : Signature} {code : Code} {vs : List Value}
    (h : (Value.typed name sig code vs).Plain s) : ∀ v ∈ vs, v.Plain s :=
  fun v hv => ⟨h.inScope.args v hv, Value.nativeAll_iff.mp (by simpa [Native] using h.native) v hv⟩

end Value.Plain

/-! ## The rules -/

inductive Inhabits (s : Store) : Value → Ty → Prop
  | unit : Inhabits s .unit (.nullary .unit)
  | bool {b : Bool} : Inhabits s (.bool b) (.nullary .bool)
  | int {n : Int64} : Inhabits s (.int n) (.nullary .int)
  | float {x : Binary64} : Inhabits s (.float x) (.nullary .float)
  | text {text : String} : Inhabits s (.text text) (.nullary .text)
  | list {items : List Value} {t : Ty} :
      (∀ v ∈ items, Inhabits s v t) → Inhabits s (.list items) (.list t)
  | tuple {items : List Value} {ts : List Ty} :
      items.length = ts.length → (∀ q ∈ items.zip ts, Inhabits s q.1 q.2) →
      Inhabits s (.tuple items) (.tuple ts)
  /-- One instance of all variables of the declaration gives each field its declared type. -/
  | data {type : DataType} {variant : Fin type.variants.length} {fields : List Value} (ψ : Subst) :
      (∀ q ∈ fields.zip (type.variants.get variant).fields,
        Inhabits s q.1 ((s.resolve q.2).subst ψ)) →
      Inhabits s (.data type variant fields)
        (.con type.con (type.params.map fun v => (s.resolve (.var v)).subst ψ))
  | builtin {name : String} {arity : Nat} {code : Code} {args : List Value} {ts : List Ty}
      {t : Ty} : ts.length = Value.missing arity args →
      Inhabits s (.builtin name arity code args) (.chain ts t)
  | method {ref : MethodRef} {args : List Value} {ts : List Ty} {t : Ty} :
      ts.length = Value.missing ref.arity args → Inhabits s (.method ref args) (.chain ts t)
  /-- Some instance of the declared type takes the arguments held and leaves `t`. -/
  | typed {name : String} {sig : Signature} {code : Code} {args : List Value} {ts : List Ty}
      {t : Ty} (ψ : Subst) :
      args.length = ts.length → (∀ q ∈ args.zip ts, Inhabits s q.1 q.2) →
      (s.resolve sig.toTy).subst ψ = .chain ts t → Inhabits s (.typed name sig code args) t

theorem forall₂_inhabits_iff {s : Store} {vs : List Value} {ts : List Ty} :
    List.Forall₂ (Inhabits s) vs ts
      ↔ vs.length = ts.length ∧ ∀ q ∈ vs.zip ts, Inhabits s q.1 q.2 := by
  rw [List.forall₂_iff_zip]
  exact and_congr_right fun _ => ⟨fun h q hq => h hq, fun h _ _ hq => h _ hq⟩

theorem inhabits_tuple {s : Store} {items : List Value} {t : Ty} :
    Inhabits s (.tuple items) t ↔ ∃ ts, t = .tuple ts ∧ List.Forall₂ (Inhabits s) items ts := by
  constructor
  · intro h
    cases h with
    | tuple hlen hitems => exact ⟨_, rfl, forall₂_inhabits_iff.mpr ⟨hlen, hitems⟩⟩
  · rintro ⟨ts, rfl, h⟩
    obtain ⟨hlen, hitems⟩ := forall₂_inhabits_iff.mp h
    exact .tuple hlen hitems

/-- An instance of the declared type takes arguments of the types of the values, and leaves `t`. -/
def Signature.Leaves (s : Store) (sig : Signature) (args : List Value) (t : Ty) : Prop :=
  ∃ (ψ : Subst) (ts : List Ty),
    List.Forall₂ (Inhabits s) args ts ∧ (s.resolve sig.toTy).subst ψ = .chain ts t

theorem inhabits_typed {s : Store} {name : String} {sig : Signature} {code : Code}
    {args : List Value} {t : Ty} :
    Inhabits s (.typed name sig code args) t ↔ sig.Leaves s args t := by
  constructor
  · intro h
    cases h with
    | typed ψ hlen hargs heq => exact ⟨ψ, _, forall₂_inhabits_iff.mpr ⟨hlen, hargs⟩, heq⟩
  · rintro ⟨ψ, ts, hargs, heq⟩
    obtain ⟨hlen, hargs⟩ := forall₂_inhabits_iff.mp hargs
    exact .typed ψ hlen hargs heq

/-! ## Types in another store -/

namespace Store

/-- An instance in a larger store is an instance in the smaller one. -/
theorem Extends.subst_resolve_eq {s s' : Store} (h : s.Extends s') (t : Ty) (ψ : Subst) :
    (s'.resolve t).subst ψ = (s.resolve t).subst fun v => (s'.resolve (.var v)).subst ψ := by
  rw [← h.resolve_resolve t, resolve_eq_subst s' (s.resolve t), Ty.subst_subst]

end Store

theorem Inhabits.of_extends {s s' : Store} (hext : s.Extends s') {v : Value} {t : Ty}
    (h : Inhabits s' v t) : Inhabits s v t := by
  induction h with
  | unit => exact .unit
  | bool => exact .bool
  | int => exact .int
  | float => exact .float
  | text => exact .text
  | list _ ih => exact .list ih
  | tuple hlen _ ih => exact .tuple hlen ih
  | @data type variant fields ψ _ ih =>
      rw [List.map_congr_left (l := type.params) fun v _ => hext.subst_resolve_eq (.var v) ψ]
      refine .data _ fun q hq => ?_
      rw [← hext.subst_resolve_eq]
      exact ih q hq
  | builtin hlen => exact .builtin hlen
  | method hlen => exact .method hlen
  | typed ψ hlen _ heq ih =>
      rw [hext.subst_resolve_eq] at heq
      exact .typed _ hlen ih heq

end Overload
