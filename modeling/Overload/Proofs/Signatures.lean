import Overload.Proofs.Termination
import Overload.Types.Signature

/-!
# Types as signatures

`Signature.ofTy` takes a chain of arrows apart and `Signature.toTy` puts one together. Each undoes
the other (`signature_inverse`), up to links: the arrows of a type may be hidden behind bound
variables, and the split looks through these. It stops at the first type that is no arrow on two
arguments, also where the arrow constructor is applied to some other number of them.

The split is a loop with a bound. As for the other walks, `Unrolled.ofTy` is the loop itself, and
its result does not depend on how far it has been unrolled (`HasResult.unique`). A chain can
therefore be split arrow by arrow, although every type comes with a bound of its own.
-/

namespace Overload

theorem HasResult.unique {f : Nat → Option α} {r r' : α} (h : HasResult f r)
    (h' : HasResult f r') : r = r' := by
  obtain ⟨N, hN⟩ := h
  obtain ⟨M, hM⟩ := h'
  have hr := hN (max N M) (Nat.le_max_left N M)
  exact Option.some.inj (hr.symm.trans (hM (max N M) (Nat.le_max_right N M)))

/-! ## Arrows -/

/-- What a type shows of itself as a function: its domain and codomain, or that it is none. -/
def Store.ShowsFunction (s : Store) (t : Ty) : Option (Ty × Ty) → Prop
  | some (domain, codomain) => s.resolve t = .fn (s.resolve domain) (s.resolve codomain)
  | none => ∀ a b, s.resolve t ≠ .fn a b

/-- The signature is the type taken apart as far as possible. -/
structure Signature.Splits (s : Store) (t : Ty) (sig : Signature) : Prop where
  resolve_eq : s.resolve sig.toTy = s.resolve t
  ret_ne_fn : ∀ a b, s.resolve sig.ret ≠ .fn a b

/-- The signature with more parameters in front. -/
def Signature.prepend (ps : List Ty) (sig : Signature) : Signature :=
  { sig with params := ps ++ sig.params }

/-- If the type is no function, there is nothing to take apart. -/
theorem Signature.Splits.params_eq_nil {s : Store} {t : Ty} {sig : Signature}
    (h : sig.Splits s t) (ht : ∀ a b, s.resolve t ≠ .fn a b) : sig.params = [] := by
  cases hparams : sig.params with
  | nil => rfl
  | cons p ps =>
      have heq := h.resolve_eq
      rw [Signature.toTy, hparams, Ty.chain_cons, Store.resolve_fn] at heq
      exact absurd heq.symm (ht _ _)

namespace Unrolled

open Walk

/-! ## The loop -/

def asFunction (n : Nat) (t : Ty) : Walk (Option (Ty × Ty)) := do
  match ← prune n t with
  | .con .arrow [domain, codomain] => return some (domain, codomain)
  | _ => return none

def split : Nat → Ty → Walk (List Ty × Ty)
  | 0, _ => failure
  | n + 1, t => do
      match ← asFunction n t with
      | some (domain, codomain) =>
          let (params, ret) ← split n (← prune n codomain)
          return (domain :: params, ret)
      | none => return ([], t)

def ofTy (n : Nat) (t : Ty) : Walk Signature := do
  let t ← prune n t
  let (params, ret) ← split n t
  return { params, ret }

section

variable {s : Store} (hs : s.WellFormed)
include hs

theorem endsAs_asFunction (t : Ty) :
    EndsAs s.Quiet (asFunction · t) t.asFunction (s.ShowsFunction t) := by
  simp only [asFunction, Ty.asFunction]
  refine (endsAs_prune hs t).bind fun r hr => ?_
  rcases hr.cases with ⟨v, rfl, -, ht⟩ | ⟨c, args, rfl, ht⟩
  · refine .pure fun a b => ?_
    rw [ht]
    exact Ty.noConfusion
  · cases c with
    | arrow =>
        rcases args with _ | ⟨domain, _ | ⟨codomain, _ | ⟨a, as⟩⟩⟩
        case cons.cons.nil => exact .pure ht
        all_goals
          refine .pure fun a b => ?_
          rw [ht]
          simp [Ty.fn]
    | _ =>
        refine .pure fun a b => ?_
        rw [ht]
        simp [Ty.fn]

/-- Each round takes one arrow off, which makes the rest lower. -/
theorem endsAs_splitWithin (n : Nat) {t : Ty} (hn : (s.resolve t).height < n) :
    EndsAs s.Quiet (split · t) (Signature.splitWithin n t)
      fun q => Signature.Splits s t { params := q.1, ret := q.2 } := by
  induction n generalizing t with
  | zero => omega
  | succ n ih =>
      refine .deeper ?_
      simp only [split, Signature.splitWithin]
      refine (endsAs_asFunction hs t).bind fun o ho => ?_
      rcases o with _ | ⟨domain, codomain⟩
      · exact .pure ⟨rfl, ho⟩
      · have ht : s.resolve t = .fn (s.resolve domain) (s.resolve codomain) := ho
        refine (endsAs_prune hs codomain).bind fun r hr => ?_
        have hheight : (s.resolve r).height < n := by
          rw [ht] at hn
          have hlt : (s.resolve codomain).height
              < (Ty.fn (s.resolve domain) (s.resolve codomain)).height :=
            Ty.height_lt_of_mem (List.mem_cons_of_mem _ List.mem_cons_self)
          rw [hr.resolve_eq]
          exact Nat.lt_of_lt_of_le hlt (Nat.le_of_lt_succ hn)
        refine (ih hheight).bind fun q hq => .pure ⟨?_, hq.ret_ne_fn⟩
        have hrest : s.resolve (.chain q.1 q.2) = s.resolve codomain :=
          hq.resolve_eq.trans hr.resolve_eq
        rw [ht, ← hrest]
        exact s.resolve_fn domain (.chain q.1 q.2)

theorem endsAs_ofTy (t : Ty) :
    EndsAs s.Quiet (ofTy · t) (Signature.ofTy t) (Signature.Splits s t) := by
  simp only [ofTy, Signature.ofTy]
  refine (endsAs_prune hs t).bind fun r hr => ?_
  have hsplit : EndsAs s.Quiet (split · r) (Ty.bounded [r] (Signature.splitWithin · r)) _ :=
    .bounded hs fun n hn => endsAs_splitWithin hs n (hn r (List.mem_singleton.mpr rfl))
  refine hsplit.bind fun q hq => .pure ⟨?_, hq.ret_ne_fn⟩
  exact hq.resolve_eq.trans hr.resolve_eq

end

/-! ## Chains -/

/-- An arrow that is there to see is taken off without looking further. -/
theorem ofTy_fn (n : Nat) (p u : Ty) (s : Store) :
    ofTy (n + 2) (.fn p u) s
      = (ofTy (n + 1) u s).map fun res => (res.1.prepend [p], res.2) := by
  show ((prune (n + 1) u s).bind fun r => (split (n + 1) r.1 r.2).bind fun q => some _).bind _
    = ((prune (n + 1) u s).bind fun r => (split (n + 1) r.1 r.2).bind _).map _
  cases prune (n + 1) u s with
  | none => rfl
  | some r =>
      simp only [Option.bind_some]
      cases split (n + 1) r.1 r.2 with
      | none => rfl
      | some q => rfl

theorem hasResult_ofTy_chain {s : Store} {r : Ty} {res : Signature × Store}
    (h : HasResult (ofTy · r s) res) (ps : List Ty) :
    HasResult (ofTy · (.chain ps r) s) (res.1.prepend ps, res.2) := by
  induction ps with
  | nil => exact h
  | cons p ps ih =>
      obtain ⟨N, hN⟩ := ih
      refine .deeper (.deeper ⟨N, fun n hn => ?_⟩)
      show ofTy (n + 2) (.fn p (.chain ps r)) s = _
      have hrest : ofTy (n + 1) (.chain ps r) s = _ := hN (n + 1) (Nat.le_succ_of_le hn)
      rw [ofTy_fn, hrest]
      rfl

end Unrolled

/-! ## There and back -/

theorem Signature.hasResult_ofTy {s : Store} (hs : s.WellFormed) (t : Ty) :
    HasResult (Unrolled.ofTy · t s) (ofTy t s) ∧ (ofTy t s).1.Splits s t ∧ s.Quiet (ofTy t s).2 :=
  Unrolled.endsAs_ofTy hs t s (.refl hs)

/-- The parameters of a chain come first, and the rest is split as if it stood alone. -/
theorem Signature.ofTy_chain {s : Store} (hs : s.WellFormed) (ps : List Ty) (r : Ty) :
    ofTy (.chain ps r) s = ((ofTy r s).1.prepend ps, (ofTy r s).2) :=
  (hasResult_ofTy hs (.chain ps r)).1.unique
    (Unrolled.hasResult_ofTy_chain (hasResult_ofTy hs r).1 ps)

/-- Types that resolve alike are equal, also after more has been read. -/
theorem Store.Quiet.equal_eq_true {s s' : Store} (h : s.Quiet s') (hs : s.WellFormed) {t u : Ty}
    (htu : s.resolve t = s.resolve u) : (t.equal u s').1 = true := by
  rw [(reads_equal hs t u s' h).1, decide_eq_true_eq]
  exact htu

/-- What a type shows as a function is the same after more has been read. -/
theorem Store.Quiet.asFunction_spec {s s' : Store} (h : s.Quiet s') (hs : s.WellFormed) (t : Ty) :
    s.ShowsFunction t (t.asFunction s').1 :=
  (Unrolled.endsAs_asFunction hs t s' h).2.1

theorem Store.ShowsFunction.eq_none {s : Store} {t : Ty} {o : Option (Ty × Ty)}
    (h : s.ShowsFunction t o) (ht : ∀ a b, s.resolve t ≠ .fn a b) : o = none := by
  cases o with
  | none => rfl
  | some q => exact absurd h (ht _ _)

/-- The loop that splits a type ends. It gives a signature whose type is the given one and whose
result is no function. Split again, a chain gives back its parameters, followed by what the rest of
the chain gives alone; so a signature comes back from its type unless its result is a function. -/
theorem signature_inverse {s : Store} (hs : s.WellFormed) :
    (∀ t : Ty, HasResult (Unrolled.ofTy · t s) (Signature.ofTy t s)
        ∧ ((Signature.ofTy t s).1.toTy.equal t (Signature.ofTy t s).2).1 = true
        ∧ ((Signature.ofTy t s).1.ret.asFunction (Signature.ofTy t s).2).1 = none)
      ∧ (∀ (ps : List Ty) (r : Ty), Signature.ofTy (.chain ps r) s
          = ((Signature.ofTy r s).1.prepend ps, (Signature.ofTy r s).2))
      ∧ ∀ sig : Signature, (sig.ret.asFunction s).1 = none →
          (Signature.ofTy sig.toTy s).1.params = sig.params
            ∧ ((Signature.ofTy sig.toTy s).1.ret.equal sig.ret
                (Signature.ofTy sig.toTy s).2).1 = true := by
  refine ⟨fun t => ?_, Signature.ofTy_chain hs, fun sig hret => ?_⟩
  · obtain ⟨hends, hsplits, hquiet⟩ := Signature.hasResult_ofTy hs t
    refine ⟨hends, hquiet.equal_eq_true hs hsplits.resolve_eq, ?_⟩
    exact (hquiet.asFunction_spec hs _).eq_none hsplits.ret_ne_fn
  · have hfn : ∀ a b, s.resolve sig.ret ≠ .fn a b := by
      have hshows := (Store.Quiet.refl hs).asFunction_spec hs sig.ret
      rwa [hret] at hshows
    obtain ⟨-, hsplits, hquiet⟩ := Signature.hasResult_ofTy hs sig.ret
    have hparams := hsplits.params_eq_nil hfn
    have hretEq := hsplits.resolve_eq
    rw [Signature.toTy, hparams, Ty.chain_nil] at hretEq
    rw [Signature.toTy, Signature.ofTy_chain hs]
    refine ⟨?_, hquiet.equal_eq_true hs hretEq⟩
    rw [Signature.prepend, hparams, List.append_nil]

/-- Under `#0 := List #1` and `#2 := #0 -> Int`, the second arrow of `Bool -> #2` is behind a link.
An arrow on one argument is no function, and stays the result that it is. -/
theorem signature_inverse_hidden :
    let s := Store.sample.setLink ⟨2⟩ (.fn (.var ⟨0⟩) (.nullary .int))
    let t := Ty.fn (.nullary .bool) (.var ⟨2⟩)
    let sig : Signature := { params := [.var ⟨2⟩, .var ⟨0⟩], ret := .con .arrow [.nullary .int] }
    s.WellFormed
      ∧ (Signature.ofTy t s).1.params = [.nullary .bool, .var ⟨0⟩]
      ∧ ((Signature.ofTy t s).1.toTy.equal t (Signature.ofTy t s).2).1 = true
      ∧ (sig.ret.asFunction s).1 = none
      ∧ (Signature.ofTy sig.toTy s).1.params = sig.params := by
  intro s t sig
  have hs : s.WellFormed := (Store.extends_bind Store.sample_wellFormed rfl (by decide)
    (Store.sample_covers_fn 0 .int (by decide)) (by decide +kernel)).wellFormed
  have hret : (sig.ret.asFunction s).1 = none := by decide +kernel
  obtain ⟨hsplit, -, hback⟩ := signature_inverse hs
  exact ⟨hs, by decide +kernel, (hsplit t).2.1, hret, (hback sig hret).1⟩

end Overload
