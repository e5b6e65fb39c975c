import Overload.Inference.Copy
import Overload.Proofs.Observation

/-!
# Copies are renamings

What a copy does is a fold over the variables of the resolved term, from left to right: a variable
that is kept, or already has a replacement, needs nothing, and any other one gets the next index
(`Renaming.meetAll`). The copy is the resolved term under the renaming that comes out, and all that
happens to the store is that the new variables are allocated (`copies_copyWith`).

The new variables are distinct and were not there before, so a copy has exactly the values that
the original can take once the kept variables have theirs: `IsCopy.value` and `IsCopy.realize` are
the two directions.
-/

namespace Overload

namespace Renaming

/-! ## Meeting variables -/

/-- A variable met by a copy, with the index that the next new variable gets. -/
def meet (kept : List Var) (m : Renaming × Nat) (v : Var) : Renaming × Nat :=
  if v ∈ kept ∨ (m.1.lookup v).isSome then m else ((v, ⟨m.2⟩) :: m.1, m.2 + 1)

def meetAll (kept : List Var) (m : Renaming × Nat) (vs : List Var) : Renaming × Nat :=
  vs.foldl (meet kept) m

theorem meetAll_append (kept : List Var) (m : Renaming × Nat) (vs ws : List Var) :
    meetAll kept m (vs ++ ws) = meetAll kept (meetAll kept m vs) ws :=
  List.foldl_append

/-- The renaming as a substitution: kept variables stay. -/
def toSubst (m : Renaming) (kept : List Var) : Subst := fun v =>
  if v ∈ kept then .var v else ((m.lookup v).map Ty.var).getD (.var v)

/-- `m'` has grown from `m` with new variables from `k` up to `k'`. -/
structure Grows (m : Renaming) (k : Nat) (m' : Renaming) (k' : Nat) : Prop where
  le : k ≤ k'
  keeps : ∀ v w, m.lookup v = some w → m'.lookup v = some w
  new : ∀ v w, m'.lookup v = some w → m.lookup v = some w ∨ (k ≤ w.index ∧ w.index < k')
  inj : ∀ v v' w, m.lookup v = none → m.lookup v' = none → m'.lookup v = some w →
    m'.lookup v' = some w → v = v'

theorem Grows.bounds {m m' : Renaming} {k k' : Nat} (h : m.Grows k m' k') {v w : Var}
    (hv : m.lookup v = none) (hw : m'.lookup v = some w) : k ≤ w.index ∧ w.index < k' := by
  rcases h.new v w hw with hm | hb
  · rw [hv] at hm
    cases hm
  · exact hb

theorem Grows.refl (m : Renaming) (k : Nat) : m.Grows k m k where
  le := Nat.le_refl k
  keeps _ _ h := h
  new _ _ h := .inl h
  inj v v' w hv _ hw _ := by
    rw [hv] at hw
    cases hw

theorem Grows.trans {m₁ m₂ m₃ : Renaming} {k₁ k₂ k₃ : Nat} (h : m₁.Grows k₁ m₂ k₂)
    (h' : m₂.Grows k₂ m₃ k₃) : m₁.Grows k₁ m₃ k₃ where
  le := Nat.le_trans h.le h'.le
  keeps v w hv := h'.keeps v w (h.keeps v w hv)
  new v w hv := by
    have hle := h.le
    have hle' := h'.le
    rcases h'.new v w hv with hv | hw
    · rcases h.new v w hv with hv | hw
      · exact .inl hv
      · exact .inr ⟨by omega, by omega⟩
    · exact .inr ⟨by omega, by omega⟩
  inj v v' w hv hv' hw hw' := by
    -- the index of `w` tells in which of the two parts it is new
    have hpart : ∀ {u x}, m₁.lookup u = none → m₂.lookup u = some x → m₃.lookup u = some w →
        w.index < k₂ ∧ m₂.lookup u = some w := by
      intro u x hu hx huw
      obtain rfl := Option.some.inj ((h'.keeps u x hx).symm.trans huw)
      exact ⟨(h.bounds hu hx).2, hx⟩
    cases hm : m₂.lookup v with
    | none =>
        have hb := h'.bounds hm hw
        cases hm' : m₂.lookup v' with
        | none => exact h'.inj v v' w hm hm' hw hw'
        | some x' =>
            have hb' := hpart hv' hm' hw'
            omega
    | some x =>
        have hb := hpart hv hm hw
        cases hm' : m₂.lookup v' with
        | none =>
            have hb' := h'.bounds hm' hw'
            omega
        | some x' => exact h.inj v v' w hv hv' hb.2 (hpart hv' hm' hw').2

theorem grows_meet (kept : List Var) (m : Renaming) (k : Nat) (v : Var) :
    m.Grows k (meet kept (m, k) v).1 (meet kept (m, k) v).2 := by
  rw [meet]
  split
  · exact .refl m k
  · next h =>
      have hv : m.lookup v = none := Option.not_isSome_iff_eq_none.mp fun e => h (.inr e)
      have hlook : ∀ u w, List.lookup u ((v, ⟨k⟩) :: m) = some w →
          (u = v ∧ w = ⟨k⟩) ∨ m.lookup u = some w := by
        intro u w hu
        rw [List.lookup_cons] at hu
        split at hu
        · next hb => exact .inl ⟨eq_of_beq hb, (Option.some.inj hu).symm⟩
        · exact .inr hu
      refine ⟨Nat.le_succ k, fun u w hu => ?_, fun u w hu => ?_, fun u u' w hn hn' hu hu' => ?_⟩
      · rw [List.lookup_cons]
        split
        · next hb =>
            rw [eq_of_beq hb, hv] at hu
            cases hu
        · exact hu
      · rcases hlook u w hu with ⟨-, rfl⟩ | hu
        · exact .inr ⟨Nat.le_refl k, Nat.lt_succ_self k⟩
        · exact .inl hu
      · rcases hlook u w hu with ⟨rfl, -⟩ | hu
        · rcases hlook u' w hu' with ⟨rfl, -⟩ | hu'
          · rfl
          · rw [hn'] at hu'
            cases hu'
        · rw [hn] at hu
          cases hu

theorem grows_meetAll (kept : List Var) (vs : List Var) (m : Renaming) (k : Nat) :
    m.Grows k (meetAll kept (m, k) vs).1 (meetAll kept (m, k) vs).2 := by
  induction vs generalizing m k with
  | nil => exact .refl m k
  | cons v vs ih => exact (grows_meet kept m k v).trans (ih _ _)

theorem met (kept : List Var) {vs : List Var} {v : Var} (hv : v ∈ vs) (m : Renaming) (k : Nat) :
    v ∈ kept ∨ ∃ w, (meetAll kept (m, k) vs).1.lookup v = some w := by
  induction vs generalizing m k with
  | nil => cases hv
  | cons u vs ih =>
      rcases List.mem_cons.mp hv with rfl | hv
      · have hgrows := grows_meetAll kept vs (meet kept (m, k) v).1 (meet kept (m, k) v).2
        by_cases hk : v ∈ kept
        · exact .inl hk
        · obtain ⟨w, hw⟩ : ∃ w, (meet kept (m, k) v).1.lookup v = some w := by
            rw [meet]
            split
            · next h => exact Option.isSome_iff_exists.mp (h.resolve_left hk)
            · exact ⟨⟨k⟩, by simp⟩
          exact .inr ⟨w, hgrows.keeps v w hw⟩
      · exact ih hv _ _

/-! ## The renaming as a substitution -/

theorem toSubst_of_mem {m : Renaming} {kept : List Var} {v : Var} (h : v ∈ kept) :
    m.toSubst kept v = .var v := by
  rw [toSubst, if_pos h]

theorem toSubst_of_lookup {m : Renaming} {kept : List Var} {v w : Var} (h : v ∉ kept)
    (hw : m.lookup v = some w) : m.toSubst kept v = .var w := by
  rw [toSubst, if_neg h, hw]
  rfl

/-- Once the variables of a term have been met, later ones do not change its copy. -/
theorem subst_toSubst_eq {m m' : Renaming} {kept : List Var} {t : Ty}
    (hmet : ∀ v ∈ t.vars, v ∈ kept ∨ ∃ w, m.lookup v = some w)
    (hle : ∀ v w, m.lookup v = some w → m'.lookup v = some w) :
    t.subst (m'.toSubst kept) = t.subst (m.toSubst kept) := by
  refine Ty.subst_congr fun v hv => ?_
  by_cases hk : v ∈ kept
  · rw [toSubst_of_mem hk, toSubst_of_mem hk]
  · obtain ⟨w, hw⟩ := (hmet v hv).resolve_left hk
    rw [toSubst_of_lookup hk hw, toSubst_of_lookup hk (hle v w hw)]

end Renaming

namespace Store

/-! ## The run of a copy -/

theorem Alike.varsOf_eq {s s' : Store} (hs : s.WellFormed) (h : s.Alike s') (vs : List Var) :
    s'.varsOf vs = s.varsOf vs := by
  simp only [varsOf, h.resolve_eq hs]

/-- From every store that `s` has grown into without a new equation, the computation meets the
variables `vs`, allocates for them, and answers as `g` says of the renaming it ends with. -/
def Copies (s : Store) (kept : List Var) (x : StateT Renaming StoreM α) (vs : List Var)
    (g : Renaming → α) : Prop :=
  ∀ m s', s.Alike s' →
    s.Alike (x m s').2
      ∧ ((x m s').1.2, (x m s').2.size) = Renaming.meetAll kept (m, s'.size) vs
      ∧ (x m s').1.1 = g (x m s').1.2

theorem Copies.mapM {s : Store} {kept : List Var} {f : Ty → StateT Renaming StoreM Ty}
    (ts : List Ty)
    (h : ∀ t ∈ ts, s.Copies kept (f t) (s.resolve t).vars
      fun m => (s.resolve t).subst (m.toSubst kept)) :
    s.Copies kept (ts.mapM f) (ts.flatMap fun t => (s.resolve t).vars)
      fun m => ts.map fun t => (s.resolve t).subst (m.toSubst kept) := by
  induction ts with
  | nil => exact fun m s' hs' => ⟨hs', rfl, rfl⟩
  | cons t ts ih =>
      intro m s' hs'
      rw [List.mapM_cons]
      obtain ⟨h₁, hm₁, hu⟩ := h t (List.mem_cons_self ..) m s' hs'
      obtain ⟨h₂, hm₂, hus⟩ := ih (fun u hu => h u (List.mem_cons_of_mem _ hu)) _ _ h₁
      have hgrows := Renaming.grows_meetAll kept (ts.flatMap fun t => (s.resolve t).vars)
        (f t m s').1.2 (f t m s').2.size
      rw [← hm₂] at hgrows
      refine ⟨h₂, ?_, ?_⟩
      · rw [List.flatMap_cons, Renaming.meetAll_append, ← hm₁]
        exact hm₂
      · refine congrArg₂ List.cons ?_ hus
        rw [hu]
        refine (Renaming.subst_toSubst_eq (fun v hv => ?_) hgrows.keeps).symm
        have hmet := Renaming.met kept hv m s'.size
        rwa [← hm₁] at hmet

theorem Copies.map {s : Store} {kept vs : List Var} {x : StateT Renaming StoreM α}
    {g : Renaming → α} (h : s.Copies kept x vs g) (f : α → β) :
    s.Copies kept (do return f (← x)) vs fun m => f (g m) := by
  intro m s' hs'
  obtain ⟨hs₁, hm, ha⟩ := h m s' hs'
  exact ⟨hs₁, hm, congrArg f ha⟩

theorem Copies.reads {s : Store} {kept : List Var} {x : StoreM β} {A : β → Prop}
    {f : β → StateT Renaming StoreM α} {vs : List Var} {g : Renaming → α}
    (hx : ∀ s', s.Alike s' → s'.Reads x A) (hf : ∀ b, A b → s.Copies kept (f b) vs g) :
    s.Copies kept (liftM x >>= f) vs g := by
  intro m s' hs'
  obtain ⟨hb, hq⟩ := (hx s' hs').here hs'.wellFormed
  have hrun := hf _ hb m _ (hs'.trans hq.toAlike)
  rw [hq.size_eq] at hrun
  exact hrun

/-- A generic variable is replaced by the one it was replaced by before, or else by a new one. -/
theorem copies_replace {s : Store} {kept : List Var} {v : Var} (hv : v ∉ kept) (p : SupplyId) :
    s.Copies kept (do
      match (← get).lookup v with
      | some w => return .var w
      | none =>
          let w ← p.fresh
          modify ((v, w) :: ·)
          return .var w) [v] fun m => m.toSubst kept v := by
  intro m s' hs'
  have hget : ∀ f : Renaming → StateT Renaming StoreM Ty, (get >>= f) m s' = f m m s' :=
    fun _ => rfl
  rw [hget]
  cases hw : m.lookup v with
  | some w =>
      have hmet : v ∈ kept ∨ (m.lookup v).isSome := .inr (by rw [hw]; rfl)
      exact ⟨hs', (if_pos hmet).symm, (Renaming.toSubst_of_lookup hv hw).symm⟩
  | none =>
      have hmet : ¬(v ∈ kept ∨ (m.lookup v).isSome) := by simp [hv, hw]
      refine ⟨hs'.trans (alike_fresh hs'.wellFormed p), ?_, ?_⟩
      · have hmeet : Renaming.meetAll kept (m, s'.size) [v] = ((v, ⟨s'.size⟩) :: m, s'.size + 1) :=
          if_neg hmet
        rw [hmeet]
        exact Prod.ext rfl (size_fresh p s')
      · exact (Renaming.toSubst_of_lookup hv List.lookup_cons_self).symm

/-- The first constructor of the resolved term, found in a store that has grown. -/
theorem Alike.reads_prune {s s' : Store} (hs : s.WellFormed) (h : s.Alike s') (t : Ty) :
    s'.Reads t.prune fun r => (∃ v, r = .var v ∧ s.resolve t = .var v)
      ∨ ∃ c args, r = .con c args ∧ s.resolve t = .con c (args.map s.resolve) := by
  have hres : s'.resolve = s.resolve := funext (h.resolve_eq hs)
  refine (Store.reads_prune h.wellFormed t).mono fun r hr => ?_
  rcases hr.cases with ⟨v, rfl, -, ht⟩ | ⟨c, args, rfl, ht⟩
  · exact .inl ⟨v, rfl, hres ▸ ht⟩
  · exact .inr ⟨c, args, rfl, hres ▸ ht⟩

theorem copies_copyWithin {s : Store} (hs : s.WellFormed) (fixed : List Var) (p : SupplyId)
    (n : Nat) {t : Ty} (hn : (s.resolve t).height < n) :
    s.Copies (s.varsOf fixed) (t.copyWithin fixed p n) (s.resolve t).vars
      fun m => (s.resolve t).subst (m.toSubst (s.varsOf fixed)) := by
  induction n generalizing t with
  | zero => omega
  | succ n ih =>
      rw [Ty.copyWithin]
      refine Copies.reads (fun s' hs' => hs'.reads_prune hs t) fun r hr => ?_
      rcases hr with ⟨v, rfl, ht⟩ | ⟨c, args, rfl, ht⟩
      · have hgen : ∀ s', s.Alike s' →
            s'.Reads (v.isGeneric fixed) (· = decide (v ∉ s.varsOf fixed)) := fun s' hs' => by
          rw [← hs'.varsOf_eq hs]
          exact reads_isGeneric hs'.wellFormed v fixed
        rw [ht]
        refine Copies.reads hgen fun b hb => ?_
        by_cases hv : v ∈ s.varsOf fixed
        · rw [hb, decide_eq_false (not_not.mpr hv)]
          intro m s' hs'
          refine ⟨hs', (if_pos (.inl hv)).symm, (Renaming.toSubst_of_mem hv).symm⟩
        · rw [hb, decide_eq_true hv]
          exact copies_replace hv p
      · have hargs := Copies.mapM args fun a ha => ih (height_resolve_lt_of_mem ht hn ha)
        simp only [ht, Ty.vars_con, Ty.subst_con, List.flatMap_map, List.map_map]
        exact hargs.map (Ty.con c)

theorem copies_copyWith {s : Store} (hs : s.WellFormed) (t : Ty) (fixed : List Var)
    (p : SupplyId) :
    s.Copies (s.varsOf fixed) (t.copyWith fixed p) (s.resolve t).vars
      fun m => (s.resolve t).subst (m.toSubst (s.varsOf fixed)) := by
  intro m s' hs'
  refine copies_copyWithin hs fixed p (s'.budget [t]) ?_ m s' hs'
  rw [← hs'.resolve_eq hs]
  exact s'.height_resolve_lt_budget (List.mem_singleton.mpr rfl)

/-! ## Values of a copy -/

/-- `ρ` keeps the variables in `kept` and sends the others in `vs` to different variables that `s'`
has beyond `s`. -/
structure Freshens (s : Store) (kept vs : List Var) (s' : Store) (ρ : Subst) : Prop where
  keeps : ∀ v ∈ kept, ρ v = .var v
  new : ∀ v ∈ vs, v ∉ kept → ∃ w, ρ v = .var w ∧ s.size ≤ w.index ∧ w.index < s'.size
  inj : ∀ v ∈ vs, v ∉ kept → ∀ v' ∈ vs, v' ∉ kept → ρ v = ρ v' → v = v'

/-- `u` is a copy of `t`, made between `s` and `s'`. -/
structure IsCopy (s : Store) (fixed : List Var) (t : Ty) (s' : Store) (u : Ty) : Prop where
  alike : s.Alike s'
  freshens : ∃ ρ, s.Freshens (s.varsOf fixed) (s.resolve t).vars s' ρ
    ∧ u = (s.resolve t).subst ρ

theorem isCopy_copy {s : Store} (hs : s.WellFormed) (t : Ty) (fixed : List Var) (p : SupplyId) :
    s.IsCopy fixed t (t.copy fixed p s).2 (t.copy fixed p s).1 := by
  obtain ⟨halike, hm, hu⟩ := copies_copyWith hs t fixed p [] s (.refl hs)
  have hgrows := Renaming.grows_meetAll (s.varsOf fixed) (s.resolve t).vars [] s.size
  have hmet : ∀ v ∈ (s.resolve t).vars, _ := fun v hv =>
    Renaming.met (s.varsOf fixed) hv [] s.size
  rw [← hm] at hgrows
  simp only [← hm] at hmet
  refine ⟨halike, _, ⟨fun v hv => Renaming.toSubst_of_mem hv, fun v hv hk => ?_,
    fun v hv hk v' hv' hk' heq => ?_⟩, hu⟩
  · obtain ⟨w, hw⟩ := (hmet v hv).resolve_left hk
    exact ⟨w, Renaming.toSubst_of_lookup hk hw, hgrows.bounds rfl hw⟩
  · obtain ⟨w, hw⟩ := (hmet v hv).resolve_left hk
    obtain ⟨w', hw'⟩ := (hmet v' hv').resolve_left hk'
    rw [Renaming.toSubst_of_lookup hk hw, Renaming.toSubst_of_lookup hk' hw'] at heq
    obtain rfl := Ty.var.inj heq
    exact hgrows.inj v v' w rfl rfl hw hw'

/-- Solutions that agree on some variables agree on all that those stand for. -/
theorem SolvedBy.agree_varsOf {s : Store} {θ φ : Subst} (hθ : s.SolvedBy θ) (hφ : s.SolvedBy φ)
    {vs : List Var} (h : ∀ v ∈ vs, φ v = θ v) : ∀ v ∈ s.varsOf vs, φ v = θ v := by
  intro v hv
  obtain ⟨w, hw, hvw⟩ := List.mem_flatMap.mp hv
  exact (hφ.subst_eq_iff hθ (t := .var w)).mp (by simpa using h w hw) v hvw

/-- Only the variables of the store matter to its equations. -/
theorem SolvedBy.congr {s : Store} (hs : s.WellFormed) {θ θ' : Subst} (hθ : s.SolvedBy θ)
    (h : ∀ v, v.index < s.size → θ' v = θ v) : s.SolvedBy θ' := by
  intro v t hl
  rw [h v (lt_size_of_link? hl), hθ v t hl]
  exact (Ty.subst_congr fun w hw => h w (hs.closed hl w hw)).symm

namespace IsCopy

variable {s s' : Store} {fixed : List Var} {t u : Ty}

/-- The variables of a copy are shared with a fixed one, or new. -/
theorem mem_vars (h : s.IsCopy fixed t s' u) {w : Var} (hw : w ∈ u.vars) :
    (w ∈ s.varsOf fixed ∧ w ∈ (s.resolve t).vars) ∨ (s.size ≤ w.index ∧ w.index < s'.size) := by
  obtain ⟨ρ, hρ, rfl⟩ := h.freshens
  rw [Ty.vars_subst] at hw
  obtain ⟨v, hv, hwv⟩ := List.mem_flatMap.mp hw
  by_cases hk : v ∈ s.varsOf fixed
  · rw [hρ.keeps v hk] at hwv
    obtain rfl := List.mem_singleton.mp (by simpa using hwv)
    exact .inl ⟨hk, hv⟩
  · obtain ⟨w', hw', hb⟩ := hρ.new v hv hk
    rw [hw'] at hwv
    obtain rfl := List.mem_singleton.mp (by simpa using hwv)
    exact .inr hb

theorem covers (h : s.IsCopy fixed t s' u) (hs : s.WellFormed) (ht : s.Covers t) :
    s'.Covers u := by
  intro w hw
  rcases h.mem_vars hw with ⟨-, hw⟩ | hw
  · exact Nat.lt_of_lt_of_le (hs.covers_resolve ht w hw) h.alike.size_le
  · exact hw.2

/-- Every value of the copy is one of the original, with the fixed variables as they are. -/
theorem value (h : s.IsCopy fixed t s' u) (hs : s.WellFormed) {θ : Subst} (hθ : s.SolvedBy θ) :
    ∃ φ, s.SolvedBy φ ∧ (∀ f ∈ fixed, φ f = θ f) ∧ t.subst φ = u.subst θ := by
  obtain ⟨ρ, hρ, rfl⟩ := h.freshens
  refine ⟨_, solvedBy_resolve_comp hs.acyclic fun v => (ρ v).subst θ, fun f hf => ?_, ?_⟩
  · have hkept : ∀ v ∈ (s.resolve (.var f)).vars, (ρ v).subst θ = θ v := fun v hv => by
      rw [hρ.keeps v (List.mem_flatMap.mpr ⟨f, hf, hv⟩), Ty.subst_var]
    rw [Ty.subst_congr hkept, hθ.subst_resolve, Ty.subst_var]
  · rw [subst_resolve_comp, Ty.subst_subst]

/-- Every value that the original takes with the fixed variables as they are is one of the copy,
by a choice for the new variables. -/
theorem realize (h : s.IsCopy fixed t s' u) (hs : s.WellFormed) {θ φ : Subst}
    (hθ : s.SolvedBy θ) (hφ : s.SolvedBy φ) (hfixed : ∀ f ∈ fixed, φ f = θ f)
    (ht : s.Covers t) :
    ∃ θ', s.SolvedBy θ' ∧ (∀ v, v.index < s.size → θ' v = θ v) ∧ u.subst θ' = t.subst φ := by
  classical
  obtain ⟨ρ, hρ, rfl⟩ := h.freshens
  -- a new variable takes the value of the variable that it replaces
  let Replaces (w v : Var) : Prop :=
    v ∈ (s.resolve t).vars ∧ v ∉ s.varsOf fixed ∧ ρ v = .var w
  let θ' : Subst := fun w => if hw : ∃ v, Replaces w v then φ hw.choose else θ w
  have hold : ∀ v, v.index < s.size → θ' v = θ v := by
    intro w hw
    refine dif_neg ?_
    rintro ⟨v, hv, hk, hvw⟩
    obtain ⟨w', hw', hle, -⟩ := hρ.new v hv hk
    obtain rfl := Ty.var.inj (hvw.symm.trans hw')
    omega
  refine ⟨θ', hθ.congr hs hold, hold, ?_⟩
  rw [Ty.subst_subst, ← hφ.subst_resolve t]
  refine Ty.subst_congr fun v hv => ?_
  by_cases hk : v ∈ s.varsOf fixed
  · rw [hρ.keeps v hk, Ty.subst_var, hold v (hs.covers_resolve ht v hv)]
    exact (hθ.agree_varsOf hφ hfixed v hk).symm
  · obtain ⟨w, hw, -⟩ := hρ.new v hv hk
    have hex : ∃ v, Replaces w v := ⟨v, hv, hk, hw⟩
    obtain ⟨hv', hk', hw'⟩ := hex.choose_spec
    rw [hw, Ty.subst_var]
    refine (dif_pos hex).trans (congrArg φ ?_)
    exact hρ.inj _ hv' hk' v hv hk (hw'.trans hw.symm)

end IsCopy

end Store

end Overload
