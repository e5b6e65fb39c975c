import Mathlib.Logic.Relation
import Overload.Proofs.Outcome
import Overload.Values.Typing

/-!
# What inference is made of

All that inference ever does to a store is to set links, to hand out names and to draw variables
from one supply (`Store.Step`). An inference is put together from such steps, from reports of
unifications and from failures, and it sees no more of the session than the store (`Infer.Built`).
What these parts have in common is then true of every inference, by one induction over the way it
is put together: `Infer.Built.steps` says what becomes of the session.
-/

namespace Overload

/-! ## Steps of a store -/

namespace Store

/-- One change to a store; new variables are from the supply `p`. -/
inductive Step (p : SupplyId) (s : Store) : Store → Prop
  | link (v : Var) (t : Ty) : Step p s (s.setLink v t)
  | name (v : Var) : Step p s (v.name s).2
  | fresh : Step p s (p.fresh s).2

/-- Any number of changes. -/
abbrev Steps (p : SupplyId) : Store → Store → Prop := Relation.ReflTransGen (Step p)

end Store

/-- Whatever the store, the computation gets to the one it leaves by steps. -/
def Stepwise (p : SupplyId) (x : StoreM α) : Prop := ∀ s, Store.Steps p s (x s).2

namespace Stepwise

variable {p : SupplyId} {α β : Type}

theorem pure (a : α) : Stepwise p (pure a) := fun _ => .refl

theorem bind {x : StoreM α} {f : α → StoreM β} (hx : Stepwise p x) (hf : ∀ a, Stepwise p (f a)) :
    Stepwise p (x >>= f) := fun s => (hx s).trans (hf _ _)

theorem link (v : Var) (t : Ty) : Stepwise p (v.link t) := fun _ => .single (.link v t)

theorem name (v : Var) : Stepwise p v.name := fun _ => .single (.name v)

theorem fresh : Stepwise p p.fresh := fun _ => .single .fresh

theorem freshTy : Stepwise p p.freshTy := fresh.bind fun _ => .pure _

theorem mapM {f : α → StoreM β} (hf : ∀ a, Stepwise p (f a)) (xs : List α) :
    Stepwise p (xs.mapM f) := by
  induction xs with
  | nil => exact .pure []
  | cons x xs ih =>
      rw [List.mapM_cons]
      exact (hf x).bind fun _ => ih.bind fun _ => .pure _

theorem foldlM {f : β → α → StoreM β} (hf : ∀ b a, Stepwise p (f b a)) (xs : List α) (b : β) :
    Stepwise p (xs.foldlM f b) := by
  induction xs generalizing b with
  | nil => exact .pure b
  | cons x xs ih =>
      rw [List.foldlM_cons]
      exact (hf b x).bind ih

theorem anyM {f : α → StoreM Bool} (hf : ∀ a, Stepwise p (f a)) (xs : List α) :
    Stepwise p (xs.anyM f) := by
  induction xs with
  | nil => exact .pure false
  | cons x xs ih =>
      rw [List.anyM]
      refine (hf x).bind fun found => ?_
      cases found with
      | true => exact .pure true
      | false => exact ih

theorem bounded {ts : List Ty} {walk : Nat → StoreM α} (h : ∀ n, Stepwise p (walk n)) :
    Stepwise p (Ty.bounded ts walk) := fun s => h (s.budget ts) s

/-! ### Walks -/

theorem prune (t : Ty) : Stepwise p t.prune := by
  have hprune : ∀ n t (s : Store), Store.Steps p s (s.prune n t).2 := by
    intro n
    induction n with
    | zero => exact fun t s => .refl
    | succ n ih =>
        intro t s
        cases t with
        | con c args => exact .refl
        | var v =>
            rw [Store.prune]
            cases s.link? v with
            | none => exact .refl
            | some t => exact (ih t s).tail (.link v _)
  exact fun s => hprune s.size t s

theorem occursIn (v : Var) (t : Ty) : Stepwise p (v.occursIn t) := by
  refine .bounded fun n => ?_
  induction n generalizing t with
  | zero => exact .pure false
  | succ n ih =>
      rw [Var.occursWithin]
      refine (prune t).bind fun r => ?_
      cases r with
      | var w => exact .pure _
      | con c args => exact .anyM ih args

theorem isGeneric (v : Var) (fixed : List Var) : Stepwise p (v.isGeneric fixed) :=
  (anyM (occursIn v) _).bind fun _ => .pure _

theorem freeVars (t : Ty) : Stepwise p t.freeVars := by
  have hwalk : ∀ n found t, Stepwise p (Ty.freeVarsWithin n found t) := by
    intro n
    induction n with
    | zero => exact fun found t => .pure found
    | succ n ih =>
        intro found t
        rw [Ty.freeVarsWithin]
        refine (prune t).bind fun r => ?_
        cases r with
        | var v => exact .pure _
        | con c args => exact .foldlM ih args found
  exact .bounded fun n => hwalk n [] t

theorem display (t : Ty) : Stepwise p t.display := by
  have hwalk : ∀ n pos t, Stepwise p (Ty.displayWithin n pos t) := by
    intro n
    induction n with
    | zero => exact fun pos t => .pure ""
    | succ n ih =>
        intro pos t
        rw [Ty.displayWithin]
        refine (prune t).bind fun r => ?_
        split
        · exact name _
        · exact (ih _ _).bind fun _ => (ih _ _).bind fun _ => .pure _
        · exact (mapM (ih _) _).bind fun _ => .pure _
        · exact (mapM (ih _) _).bind fun _ => .pure _
  exact .bounded fun n => hwalk n .top t

/-! ### Copies

A copy carries its replacements along; the steps are the same whatever they are. -/

theorem lift_bind {x : StoreM β} {f : β → StateT Renaming StoreM α} (hx : Stepwise p x)
    (hf : ∀ b m, Stepwise p (f b m)) (m : Renaming) : Stepwise p ((liftM x >>= f) m) :=
  fun s => (hx s).trans (hf _ m _)

theorem get_bind {f : Renaming → StateT Renaming StoreM α} (hf : ∀ m, Stepwise p (f m m))
    (m : Renaming) : Stepwise p ((get >>= f) m) := hf m

theorem mapM_run {f : α → StateT Renaming StoreM β} (hf : ∀ a m, Stepwise p (f a m))
    (xs : List α) (m : Renaming) : Stepwise p (xs.mapM f m) := by
  induction xs generalizing m with
  | nil => exact fun _ => .refl
  | cons x xs ih =>
      rw [List.mapM_cons]
      exact fun s => (hf x m s).trans (ih _ _)

theorem copyWith (t : Ty) (fixed : List Var) (m : Renaming) :
    Stepwise p (t.copyWith fixed p m) := by
  have hwalk : ∀ n t m, Stepwise p (Ty.copyWithin fixed p n t m) := by
    intro n
    induction n with
    | zero => exact fun t m => .pure _
    | succ n ih =>
        intro t
        rw [Ty.copyWithin]
        refine lift_bind (prune t) fun r => ?_
        cases r with
        | con c args => exact fun m s => mapM_run ih args m s
        | var v =>
            refine lift_bind (isGeneric v fixed) fun generic m => ?_
            cases generic with
            | false => exact .pure _
            | true =>
                rw [if_pos rfl]
                refine get_bind (fun m => ?_) m
                cases m.lookup v with
                | some w => exact .pure _
                | none => exact lift_bind fresh (fun w m => .pure _) m
  exact .bounded fun n => hwalk n t m

theorem copy (t : Ty) (fixed : List Var) : Stepwise p (t.copy fixed p) :=
  (copyWith t fixed []).bind fun _ => .pure _

theorem copyAll (ts : List Ty) (fixed : List Var) (m : Renaming) :
    Stepwise p (Ty.copyAll ts fixed p m) := mapM_run (fun t => copyWith t fixed) ts m

theorem openCopy (sig : Signature) : Stepwise p (sig.openCopy p) :=
  (copyWith _ _ _).bind fun _ => (freeVars _).bind fun _ => .pure _

theorem unknownFunction (arity : Nat) : Stepwise p (Ty.unknownFunction p arity) :=
  (mapM (fun _ => freshTy) _).bind fun _ => freshTy.bind fun _ => .pure _

theorem foreign (object : Foreign) : Stepwise p (object.typeOf p) := by
  rw [Foreign.typeOf]
  split
  · split
    · exact copy _ _
    · exact .pure _
  · exact .pure _

end Stepwise

/-! ## Parts of an inference -/

/-- The computation is put together from steps of the store, reports of unifications and
failures. It may go by the store, and sees nothing else of the session. -/
inductive Infer.Built (p : SupplyId) : {α : Type} → Infer α → Prop
  | pure {α : Type} (a : α) : Built p (pure a)
  | throw {α : Type} (e : TypeError) : Built p (throw e : Infer α)
  | store {α : Type} {x : StoreM α} : Stepwise p x → Built p (liftM x)
  | announce (l r : Ty) : Built p (announce l r)
  | bind {α β : Type} {x : Infer α} {f : α → Infer β} :
      Built p x → (∀ a, Built p (f a)) → Built p (x >>= f)
  | measure {α : Type} {f : Store → Infer α} :
      (∀ s, Built p (f s)) → Built p (do f (← get).store)

namespace Infer.Built

variable {p : SupplyId} {α β : Type}

theorem forM {f : α → Infer Unit} (hf : ∀ a, Built p (f a)) (xs : List α) :
    Built p (xs.forM f) := by
  induction xs with
  | nil => exact .pure ()
  | cons x xs ih => exact (hf x).bind fun _ => ih

theorem varBind (v : Var) (t : Ty) : Built p (v.bind t) := by
  unfold Var.bind
  split
  · split
    · exact .pure ()
    · exact .store (.link v _)
  · refine .bind (.store (.occursIn v _)) fun found => ?_
    split
    · refine .bind (.store (.display _)) fun _ => .bind (.store (.display _)) fun _ => ?_
      exact .throw _
    · exact .store (.link v _)

theorem unifyWithin (n : Nat) (l r : Ty) : Built p (unifyWithin n l r) := by
  induction n generalizing l r with
  | zero => exact .throw _
  | succ n ih =>
      rw [Overload.unifyWithin]
      refine .bind (.store (.prune l)) fun l => .bind (.store (.prune r)) fun r => ?_
      refine .bind (.announce l r) fun _ => ?_
      split
      · exact varBind _ _
      · exact .bind (.announce _ _) fun _ => varBind _ _
      · split
        · exact forM (fun (a, b) => ih a b) _
        · refine .bind (.store (.display _)) fun _ => .bind (.store (.display _)) fun _ => ?_
          exact .throw _

theorem unify (l r : Ty) : Built p (unify l r) :=
  .measure fun s => unifyWithin (s.budget [l, r]) l r

theorem analyze (Γ : Env) (fixed : List Var) (x : Expr) : Built p (x.analyze p Γ fixed) := by
  induction x generalizing Γ fixed with
  | var name =>
      rw [Expr.analyze]
      split
      · exact .store (.copy _ fixed)
      · exact .throw _
  | app func arg ihFunc ihArg =>
      rw [Expr.analyze]
      refine .bind (ihFunc Γ fixed) fun _ => .bind (ihArg Γ fixed) fun _ => ?_
      exact .bind (.store .freshTy) fun _ => .bind (unify _ _) fun _ => .pure _
  | lam param body ih =>
      rw [Expr.analyze]
      exact .bind (.store .fresh) fun _ => .bind (ih _ _) fun _ => .pure _
  | letRec name defn body ihDefn ihBody =>
      rw [Expr.analyze]
      refine .bind (.store .fresh) fun _ => .bind (ihDefn _ _) fun _ => ?_
      exact .bind (unify _ _) fun _ => ihBody _ _

theorem opened (o : Opened) (name : String) (args : List Ty) :
    Built p (o.applyTo p name args) := by
  rw [Opened.applyTo]
  refine .bind (analyze _ _ _) fun _ => .bind (.store .freshTy) fun _ => ?_
  exact .bind (unify _ _) fun _ => .pure _

mutual

theorem typeOf : ∀ v : Value, Built p (v.typeOf p)
  | .unit | .bool _ | .int _ | .float _ | .text _ => by
      rw [Value.typeOf]
      exact .pure _
  | .list [] => by
      rw [Value.typeOf]
      exact .bind (.store .freshTy) fun _ => .pure _
  | .list (v :: vs) => by
      rw [Value.typeOf]
      exact .bind (typeOf v) fun elem => .bind (agreeWith elem vs) fun _ => .pure _
  | .tuple items => by
      rw [Value.typeOf]
      exact .bind (typesOf items) fun _ => .pure _
  | .data type variant fields => by
      rw [Value.typeOf]
      refine .bind (.store (.copyAll _ _ _)) fun (params, m) => ?_
      exact .bind (fitFields m _ fields) fun _ => .pure _
  | .builtin .. | .method .. => by
      rw [Value.typeOf]
      exact .store (.unknownFunction _)
  | .typed _ sig _ [] => by
      rw [Value.typeOf]
      exact .store (.copy _ _)
  | .typed name sig _ (v :: vs) => by
      rw [Value.typeOf]
      exact .bind (.store (.openCopy sig)) fun o => .bind (typesOf (v :: vs)) fun ts =>
        opened o name ts
  | .foreign object => by
      rw [Value.typeOf]
      exact .store (.foreign object)

theorem typesOf : ∀ vs : List Value, Built p (Value.typesOf p vs)
  | [] => by
      rw [Value.typesOf]
      exact .pure _
  | v :: vs => by
      rw [Value.typesOf]
      exact .bind (typeOf v) fun _ => .bind (typesOf vs) fun _ => .pure _

theorem agreeWith (elem : Ty) : ∀ vs : List Value, Built p (Value.agreeWith p elem vs)
  | [] => by
      rw [Value.agreeWith]
      exact .pure _
  | v :: vs => by
      rw [Value.agreeWith]
      exact .bind (typeOf v) fun _ => .bind (unify _ _) fun _ => agreeWith elem vs

theorem fitFields : ∀ (m : Renaming) (templates : List Ty) (vs : List Value),
    Built p (Value.fitFields p m templates vs)
  | m, template :: templates, v :: vs => by
      rw [Value.fitFields]
      refine .bind (.store (.copyWith _ _ m)) fun copy => .bind (typeOf v) fun _ => ?_
      exact .bind (unify _ _) fun _ => fitFields copy.2 templates vs
  | m, [], vs => by
      rw [Value.fitFields]
      · exact .pure _
      · simp
  | m, _ :: _, [] => by
      rw [Value.fitFields]
      · exact .pure _
      · simp

end

theorem applyTo (sig : Signature) (name : String) (args : List Value) :
    Built p (sig.applyTo p name args) := by
  refine .bind (.store (.openCopy sig)) fun o => .bind (typesOf args) fun ts => ?_
  exact .bind (opened o name ts) fun _ => .pure _

end Infer.Built

/-! ## What becomes of the session -/

/-- The store has changed by steps, and there may be more events. -/
structure Session.Steps (p : SupplyId) (σ σ' : Session) : Prop where
  store : Store.Steps p σ.store σ'.store
  declared : σ'.declared = σ.declared
  trace : ∃ events, σ'.trace = { σ.trace with events := σ.trace.events ++ events }

namespace Session.Steps

variable {p : SupplyId} {σ σ₁ σ₂ : Session}

theorem of_store {s : Store} (h : Store.Steps p σ.store s) : σ.Steps p { σ with store := s } :=
  ⟨h, rfl, #[], by simp⟩

theorem refl : σ.Steps p σ := of_store .refl

theorem emit (e : Event) : σ.Steps p (σ.emit e) := ⟨.refl, rfl, #[e], rfl⟩

theorem trans (h : σ.Steps p σ₁) (h' : σ₁.Steps p σ₂) : σ.Steps p σ₂ := by
  obtain ⟨hstore, hdeclared, es, htrace⟩ := h
  obtain ⟨hstore', hdeclared', es', htrace'⟩ := h'
  refine ⟨hstore.trans hstore', hdeclared'.trans hdeclared, es ++ es', ?_⟩
  rw [htrace', htrace, Array.append_assoc]

end Session.Steps

theorem Infer.Built.steps {p : SupplyId} {α : Type} {x : Infer α} (hx : Built p x) (σ : Session) :
    Ends x σ (fun _ σ' => σ.Steps p σ') fun _ σ' => σ.Steps p σ' := by
  induction hx generalizing σ with
  | pure a => exact Ends.pure .refl
  | throw e => exact Ends.throw .refl
  | store hx => exact Ends.lift (.of_store (hx σ.store))
  | announce l r =>
      rw [Overload.announce]
      refine Ends.bind (P := fun _ σ' => σ.Steps p σ') Session.Steps.refl fun _ σ₁ h₁ => ?_
      split
      · refine Ends.lift_bind (Ends.lift_bind ?_)
        have hl : σ₁.Steps p _ := .of_store (Stepwise.display l σ₁.store)
        have hr := hl.trans (.of_store (Stepwise.display r _))
        exact (h₁.trans hr).trans (.emit _)
      · exact Ends.pure h₁
  | bind _ _ ihx ihf =>
      refine Ends.bind (ihx σ) fun a σ₁ h₁ => ?_
      exact Ends.mono (ihf a σ₁) (fun _ _ h => h₁.trans h) fun _ _ h => h₁.trans h
  | measure _ ih => exact ih σ.store σ

/-! ## Allocation -/

/-- What a store knows of the variables apart from their links and names: the supply of each, with
its number there, and how many each supply has given out. -/
structure Ledger where
  cells : Array (SupplyId × Nat)
  allocated : Array Nat

/-- One more variable from a supply. -/
def Ledger.draw (p : SupplyId) (l : Ledger) : Ledger where
  cells := l.cells.push (p, l.allocated.getD p 0)
  allocated := l.allocated.modify p (· + 1)

theorem Ledger.size_iterate_draw (p : SupplyId) (l : Ledger) (k : Nat) :
    ((draw p)^[k] l).cells.size = l.cells.size + k := by
  induction k with
  | zero => rfl
  | succ k ih => rw [Function.iterate_succ_apply', draw, Array.size_push, ih, Nat.add_assoc]

/-- Modifying an entry shows as what `f'` does to its image. -/
theorem map_modify {α β : Type} {g : α → β} {f : α → α} (f' : β → β) (xs : Array α) (i : Nat)
    (h : ∀ a, g (f a) = f' (g a)) : (xs.modify i f).map g = (xs.map g).modify i f' := by
  apply Array.ext_getElem?
  intro j
  rw [Array.getElem?_map, Array.getElem?_modify, Array.getElem?_modify, Array.getElem?_map]
  split
  · cases xs[j]? with
    | none => rfl
    | some a => simp [h]
  · rfl

theorem modify_id {α : Type} (xs : Array α) (i : Nat) : xs.modify i id = xs := by
  apply Array.ext_getElem?
  intro j
  rw [Array.getElem?_modify]
  split
  · simp
  · rfl

namespace Store

variable {p : SupplyId} {s s' s₁ s₂ : Store}

def ledger (s : Store) : Ledger where
  cells := s.cells.map fun c => (c.supply, c.serial)
  allocated := s.supplies.map Supply.allocated

theorem size_ledger : s.ledger.cells.size = s.size := Array.size_map ..

theorem ledger_setLink (v : Var) (t : Ty) : (s.setLink v t).ledger = s.ledger := by
  simp only [ledger, setLink]
  rw [map_modify id, modify_id]
  exact fun _ => rfl

theorem ledger_name (v : Var) : (v.name s).2.ledger = s.ledger := by
  simp only [Var.name, modifyGet, MonadStateOf.modifyGet, StateT.modifyGet]
  split
  · rfl
  · split
    · rfl
    · simp only [pure, ledger]
      rw [map_modify id, modify_id, map_modify id, modify_id]
      · exact fun _ => rfl
      · exact fun _ => rfl

theorem ledger_fresh : (p.fresh s).2.ledger = s.ledger.draw p := by
  have hserial : s.allocated p = (s.supplies.map Supply.allocated).getD p 0 := by
    rw [allocated, Array.getD_eq_getD_getElem?, Array.getElem?_map]
    cases s.supplies[p]? with
    | none => rfl
    | some u => rfl
  simp only [SupplyId.fresh, modifyGet, MonadStateOf.modifyGet, StateT.modifyGet, pure, ledger,
    Ledger.draw, Array.map_push, hserial]
  rw [map_modify (· + 1)]
  exact fun _ => rfl

/-- Only drawn variables enter the ledger. -/
theorem Steps.ledger_eq_iterate (h : Steps p s s') :
    ∃ k, s'.ledger = (Ledger.draw p)^[k] s.ledger := by
  induction h with
  | refl => exact ⟨0, rfl⟩
  | tail _ hstep ih =>
      obtain ⟨k, hledger⟩ := ih
      cases hstep with
      | link v t => exact ⟨k, by rw [ledger_setLink, hledger]⟩
      | name v => exact ⟨k, by rw [ledger_name, hledger]⟩
      | fresh => exact ⟨k + 1, by rw [ledger_fresh, hledger, Function.iterate_succ_apply']⟩

/-- Where as many variables have been drawn the ledgers are the same. -/
theorem Steps.ledger_eq (h₁ : Steps p s s₁) (h₂ : Steps p s s₂) (hsize : s₁.size = s₂.size) :
    s₁.ledger = s₂.ledger := by
  obtain ⟨k₁, hl₁⟩ := h₁.ledger_eq_iterate
  obtain ⟨k₂, hl₂⟩ := h₂.ledger_eq_iterate
  have hk : k₁ = k₂ := by
    rw [← size_ledger, ← size_ledger, hl₁, hl₂, Ledger.size_iterate_draw,
      Ledger.size_iterate_draw] at hsize
    omega
  rw [hl₁, hl₂, hk]

end Store

end Overload
