import Overload.Proofs.Reachability
import Overload.Proofs.Untouched
import Overload.Proofs.ValueSoundness

/-!
# Typing leaves the old types alone

To type a value is to unify, and unification binds variables of the store that all types share. The
declared types of functions, the parameters of data types and the types of their fields stand in
that store as well. They are copied before anything is unified with them, so all that typing binds
is its own: whether it succeeds or fails, every type that was there is what it was, and the type
that it comes to is about new variables only (`typing_leaves_types`).
-/

namespace Overload

/-- What was in the store is as it was. Links may have been moved to the end of their chains, as
reading does. -/
structure Store.Untouched (s s' : Store) : Prop where
  unbound : ∀ v, v.index < s.size → s.link? v = none → s'.link? v = none
  relinked : ∀ v t, s.link? v = some t → s'.link? v = some t ∨ s'.link? v = some (t.prune s).1
  resolve_eq : ∀ t, s.Covers t → s'.resolve t = s.resolve t

theorem Store.Confined.untouched {s s' : Store} (h : s.Confined [] s') (hs : s.WellFormed) :
    s.Untouched s' where
  unbound _ hv hunbound := h.unbound hs hv hunbound
  relinked _ _ hl := h.link?_eq hs hl
  resolve_eq _ ht := h.resolve_eq hs ht

/-- What the old variables do not decide is free in new variables only. -/
theorem Store.Owns.freeVars_new {s s' : Store} {t : Ty} (ht : s.Owns [] s' t)
    (h : s.Confined [] s') (hs : s.WellFormed) :
    ∀ w ∈ (t.freeVars s').1, s.size ≤ w.index ∧ w.index < s'.size := by
  intro w hw
  have hmem : w ∈ (s'.resolve t).vars := by
    rw [((reads_freeVars h.wellFormed t).here h.wellFormed).1] at hw
    simpa using mem_addNew.mp hw
  exact ⟨h.new_of_mem hs ht.stable hmem, h.wellFormed.covers_resolve ht.covers w hmem⟩

namespace Keeps

variable {α : Type} {x : Infer α} {σ : Session} {P : α → Store → Prop}

theorem untouched_after (h : Keeps x σ.store [] σ P) (hs : σ.store.WellFormed) :
    σ.store.Untouched (σ.after x).store := by
  have hconf : σ.store.Confined [] (σ.after x).store :=
    Ends.after (A := fun σ' => σ.store.Confined [] σ'.store) <|
      Ends.mono h (fun _ _ h' => h'.1.1) fun _ _ h' => h'
  exact hconf.untouched hs

theorem freeVars_new {type : α → Ty}
    (h : Keeps x σ.store [] σ fun a s' => σ.store.Owns [] s' (type a)) (hs : σ.store.WellFormed)
    {a : α} {σ' : Session} (hx : x σ = .ok a σ') :
    ∀ w ∈ ((type a).freeVars σ'.store).1, σ.store.size ≤ w.index ∧ w.index < σ'.store.size := by
  obtain ⟨⟨hconf, -⟩, howns⟩ := Ends.of_ok h hx
  exact howns.freeVars_new hconf hs

end Keeps

/-- The type of a value, and the fitting of arguments to a signature, whatever becomes of them:
nothing that was in the store is touched, hence no declared type among it, and a type that is
returned is free in variables allocated on the way. -/
theorem typing_leaves_types {σ : Session} (hs : σ.store.WellFormed) (p : SupplyId) :
    (∀ v : Value, v.Native →
        σ.store.Untouched (σ.after (v.typeOf p)).store
          ∧ ∀ t σ', v.typeOf p σ = .ok t σ' → ∀ w ∈ (t.freeVars σ'.store).1,
              σ.store.size ≤ w.index ∧ w.index < σ'.store.size)
      ∧ ∀ (sig : Signature) (name : String) (args : List Value), (∀ v ∈ args, v.Native) →
        σ.store.Untouched (σ.after (sig.applyTo p name args)).store
          ∧ ∀ o t σ', sig.applyTo p name args σ = .ok (o, t) σ' → ∀ w ∈ (t.freeVars σ'.store).1,
              σ.store.size ≤ w.index ∧ w.index < σ'.store.size := by
  constructor
  · intro v hv
    have hshared : σ.store.Admits [] v.shared := by
      rw [hv.shared_eq]
      exact fun _ hw => nomatch hw
    have hkeeps := typeOf_keeps p v (.refl hs []) hshared
    exact ⟨hkeeps.untouched_after hs, fun t σ' hok => hkeeps.freeVars_new hs hok⟩
  · intro sig name args hargs
    have hshared : σ.store.Admits [] (Value.sharedAll args) := by
      rw [(Value.nativeAll_iff.mpr hargs).sharedAll_eq]
      exact fun _ hw => nomatch hw
    have hkeeps : Keeps (sig.applyTo p name args) σ.store [] σ fun r s' => σ.store.Owns [] s' r.2 :=
      Signature.applyTo_keeps (.refl hs []) hshared
    exact ⟨hkeeps.untouched_after hs, fun o t σ' hok => hkeeps.freeVars_new hs hok⟩

/-- Under `#0 := List #1`, a function of type `#0 -> #2 -> #1` that holds an integer has no type.
Fitted to a list it has one, with a variable for `#2` that is not `#2`. -/
theorem typing_leaves_types_sample :
    let sig : Signature := { params := [.var ⟨0⟩, .var ⟨2⟩], ret := .var ⟨1⟩ }
    let bad := Value.typed "first" sig (.host 0) [.int 1]
    let σ : Session := { store := Store.sample }
    Store.sample.WellFormed ∧ bad.Native
      ∧ (∃ err σ', bad.typeOf 0 σ = .error err σ')
      ∧ Store.sample.Untouched (σ.after (bad.typeOf 0)).store
      ∧ ∃ o t σ', sig.applyTo 0 "first" [.list [.int 1]] σ = .ok (o, t) σ'
        ∧ (t.freeVars σ'.store).1 ≠ []
        ∧ ∀ w ∈ (t.freeVars σ'.store).1, 3 ≤ w.index ∧ w.index < σ'.store.size := by
  intro sig bad σ
  have hbad : bad.Native := by simp [bad, Value.Native, Value.NativeAll]
  obtain ⟨hvalues, hfits⟩ := typing_leaves_types (σ := σ) Store.sample_wellFormed 0
  obtain ⟨err, σ', hfail, -⟩ : Fails (bad.typeOf 0 σ) fun _ _ => True := by decide +kernel
  obtain ⟨r, σ₁, happly, hvars⟩ : Succeeds (sig.applyTo 0 "first" [.list [.int 1]] σ) fun r σ' =>
      (r.2.freeVars σ'.store).1 ≠ [] := by decide +kernel
  refine ⟨Store.sample_wellFormed, hbad, ⟨err, σ', hfail⟩, (hvalues bad hbad).1,
    r.1, r.2, σ₁, happly, hvars, ?_⟩
  exact (hfits sig "first" _ (by simp [Value.Native, Value.NativeAll])).2 r.1 r.2 σ₁ happly

end Overload
