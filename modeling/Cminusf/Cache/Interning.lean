import Mathlib.Data.List.Basic
import Mathlib.Data.List.Induction
import Mathlib.Tactic.Common

/-! Interning: a request gets the object that was made for an equal key, or a new one. Equality of
keys need not be reflexive, and equal keys need not be one key. -/

namespace Interning

variable {K κ : Type}

/-- The address of the object for `k`, and the keys that objects have been made for. -/
def intern (same : K → K → Bool) (created : List K) (k : K) : Nat × List K :=
  match created.findIdx? (same · k) with
  | some a => (a, created)
  | none => (created.length, created ++ [k])

/-- The addresses that a sequence of requests gets. -/
def internAll (same : K → K → Bool) (created : List K) : List K → List Nat × List K
  | [] => ([], created)
  | k :: ks =>
    let r := intern same created k
    let rs := internAll same r.2 ks
    (r.1 :: rs.1, rs.2)

structure PartialEquiv (same : K → K → Bool) : Prop where
  symm {k l : K} : same k l → same l k
  trans {k l m : K} : same k l → same l m → same k m

/-- No two objects have been made for equal keys. -/
def Distinct (same : K → K → Bool) (created : List K) : Prop :=
  created.Pairwise fun k l => same k l = false

/-- The object at `a` was made for `k` or for a key that is equal to it. -/
def Made (same : K → K → Bool) (created : List K) (k : K) (a : Nat) : Prop :=
  ∃ k₀, created[a]? = some k₀ ∧ (k₀ = k ∨ same k₀ k)

variable {same : K → K → Bool} {created created' ks : List K} {k l : K} {a b : Nat}

theorem intern_of_some (h : created.findIdx? (same · k) = some a) :
    intern same created k = (a, created) := by
  rw [intern, h]

theorem intern_of_none (h : created.findIdx? (same · k) = none) :
    intern same created k = (created.length, created ++ [k]) := by
  rw [intern, h]

theorem findIdx?_spec (h : created.findIdx? (same · k) = some a) :
    ∃ k₀, created[a]? = some k₀ ∧ same k₀ k := by
  obtain ⟨hlt, hsame, -⟩ := List.findIdx?_eq_some_iff_getElem.mp h
  exact ⟨created[a], List.getElem?_eq_getElem hlt, hsame⟩

theorem intern_prefix : created <+: (intern same created k).2 := by
  cases h : created.findIdx? (same · k) with
  | some a =>
    have he : (intern same created k).2 = created := congrArg Prod.snd (intern_of_some h)
    exact ⟨[], by simp [he]⟩
  | none =>
    have he : (intern same created k).2 = created ++ [k] := congrArg Prod.snd (intern_of_none h)
    exact ⟨[k], he.symm⟩

theorem intern_made : Made same (intern same created k).2 k (intern same created k).1 := by
  cases h : created.findIdx? (same · k) with
  | some a =>
    rw [intern_of_some h]
    obtain ⟨k₀, hk₀, hsame⟩ := findIdx?_spec h
    exact ⟨k₀, hk₀, .inr hsame⟩
  | none =>
    rw [intern_of_none h]
    exact ⟨k, by simp, .inl rfl⟩

theorem intern_distinct (h : Distinct same created) : Distinct same (intern same created k).2 := by
  cases hk : created.findIdx? (same · k) with
  | some a =>
    rw [intern_of_some hk]
    exact h
  | none =>
    rw [intern_of_none hk]
    refine List.pairwise_append.mpr ⟨h, List.pairwise_singleton _ _, fun k₀ hk₀ l hl => ?_⟩
    rw [List.mem_singleton.mp hl]
    exact List.findIdx?_eq_none_iff.mp hk k₀ hk₀

theorem intern_subset : (intern same created k).2 ⊆ created ++ [k] := by
  cases h : created.findIdx? (same · k) with
  | some a =>
    rw [intern_of_some h]
    exact List.subset_append_left _ _
  | none =>
    rw [intern_of_none h]
    exact List.Subset.refl _

theorem Made.mono (h : Made same created k a) (hpre : created <+: created') :
    Made same created' k a := by
  obtain ⟨k₀, hk₀, hsame⟩ := h
  obtain ⟨hlt, rfl⟩ := List.getElem?_eq_some_iff.mp hk₀
  obtain ⟨rest, rfl⟩ := hpre
  exact ⟨created[a], by rw [List.getElem?_append_left hlt, hk₀], hsame⟩

theorem Distinct.eq_of_same (h : Distinct same created) (hsame : PartialEquiv same)
    (hk : created[a]? = some k) (hl : created[b]? = some l) (hkl : same k l) : a = b := by
  obtain ⟨ha, rfl⟩ := List.getElem?_eq_some_iff.mp hk
  obtain ⟨hb, rfl⟩ := List.getElem?_eq_some_iff.mp hl
  have hpair := List.pairwise_iff_getElem.mp h
  rcases Nat.lt_trichotomy a b with hlt | he | hlt
  · rw [hpair a b ha hb hlt] at hkl
    cases hkl
  · exact he
  · have hlk := hsame.symm hkl
    rw [hpair b a hb ha hlt] at hlk
    cases hlk

/-- A request gets the object of an earlier one just when the keys are equal. -/
theorem Made.eq_intern_iff (h : Made same created k a) (hd : Distinct same created)
    (hsame : PartialEquiv same) : a = (intern same created l).1 ↔ same k l := by
  obtain ⟨k₀, hk₀, hk⟩ := h
  have hto : same k l → same k₀ l := by
    intro hkl
    rcases hk with rfl | hk
    · exact hkl
    · exact hsame.trans hk hkl
  cases hl : created.findIdx? (same · l) with
  | some b =>
    rw [intern_of_some hl]
    obtain ⟨l₀, hl₀, hll⟩ := findIdx?_spec hl
    constructor
    · rintro rfl
      obtain rfl := Option.some.inj (hk₀.symm.trans hl₀)
      rcases hk with rfl | hk
      · exact hll
      · exact hsame.trans (hsame.symm hk) hll
    · intro hkl
      exact hd.eq_of_same hsame hk₀ hl₀ (hsame.trans (hto hkl) (hsame.symm hll))
  | none =>
    rw [intern_of_none hl]
    obtain ⟨ha, -⟩ := List.getElem?_eq_some_iff.mp hk₀
    constructor
    · intro he
      exact absurd he (Nat.ne_of_lt ha)
    · intro hkl
      have hno := List.findIdx?_eq_none_iff.mp hl k₀ (List.mem_of_getElem? hk₀)
      rw [hto hkl] at hno
      cases hno

theorem internAll_prefix : created <+: (internAll same created ks).2 := by
  induction ks generalizing created with
  | nil => exact List.prefix_refl _
  | cons k ks ih => exact intern_prefix.trans ih

theorem length_internAll : (internAll same created ks).1.length = ks.length := by
  induction ks generalizing created with
  | nil => rfl
  | cons k ks ih => simp [internAll, ih]

theorem internAll_subset : (internAll same created ks).2 ⊆ created ++ ks := by
  induction ks generalizing created with
  | nil => simp [internAll]
  | cons k ks ih =>
    intro l hl
    rcases List.mem_append.mp (ih hl) with hl | hl
    · have := intern_subset hl
      simp only [List.mem_append, List.mem_cons, List.not_mem_nil, or_false] at this ⊢
      tauto
    · exact List.mem_append_right _ (List.mem_cons_of_mem _ hl)

theorem internAll_made : ∀ p ∈ ks.zip (internAll same created ks).1,
    Made same (internAll same created ks).2 p.1 p.2 := by
  induction ks generalizing created with
  | nil => simp
  | cons k ks ih =>
    intro p hp
    rcases List.mem_cons.mp hp with rfl | hp
    · exact intern_made.mono internAll_prefix
    · exact ih p hp

theorem internAll_distinct (h : Distinct same created) :
    Distinct same (internAll same created ks).2 := by
  induction ks generalizing created with
  | nil => exact h
  | cons k ks ih => exact ih (intern_distinct h)

/-- Requests for equal keys get one object. -/
theorem internAll_eq_of_same (hd : Distinct same created) (hsame : PartialEquiv same) :
    ∀ p ∈ ks.zip (internAll same created ks).1, ∀ q ∈ ks.zip (internAll same created ks).1,
      same p.1 q.1 → p.2 = q.2 := by
  intro p hp q hq hpq
  obtain ⟨k, hk, hkp⟩ := internAll_made p hp
  obtain ⟨l, hl, hlq⟩ := internAll_made q hq
  have hkq : same k q.1 := by
    rcases hkp with rfl | hkp
    · exact hpq
    · exact hsame.trans hkp hpq
  have hkl : same k l := by
    rcases hlq with rfl | hlq
    · exact hkq
    · exact hsame.trans hkq (hsame.symm hlq)
  exact (internAll_distinct hd).eq_of_same hsame hk hl hkl

theorem exists_mem_zip (h : k ∈ ks) : ∃ a, (k, a) ∈ ks.zip (internAll same created ks).1 := by
  obtain ⟨i, hi, rfl⟩ := List.getElem_of_mem h
  have hlen : i < (internAll same created ks).1.length := by rwa [length_internAll]
  refine ⟨(internAll same created ks).1[i], List.mem_iff_getElem.mpr ⟨i, ?_, ?_⟩⟩
  · rw [List.length_zip, length_internAll]
    omega
  · rw [List.getElem_zip]

theorem Made.eq_internAll_iff (h : Made same created k a) (hd : Distinct same created)
    (hsame : PartialEquiv same) :
    ∀ p ∈ ks.zip (internAll same created ks).1, a = p.2 ↔ same k p.1 := by
  induction ks generalizing created with
  | nil => simp
  | cons l ks ih =>
    intro p hp
    rcases List.mem_cons.mp hp with rfl | hp
    · exact h.eq_intern_iff hd hsame
    · exact ih (h.mono intern_prefix) (intern_distinct hd) p hp

/-- Two requests get one object just when their keys are equal. -/
theorem internAll_pairwise (hd : Distinct same created) (hsame : PartialEquiv same) :
    (ks.zip (internAll same created ks).1).Pairwise fun p q => p.2 = q.2 ↔ same p.1 q.1 := by
  induction ks generalizing created with
  | nil => exact List.Pairwise.nil
  | cons k ks ih =>
    exact List.pairwise_cons.mpr
      ⟨intern_made.eq_internAll_iff (intern_distinct hd) hsame, ih (intern_distinct hd)⟩

/-- The first entry of a map whose key is equal to `y`. -/
def lookup (eq : κ → κ → Bool) (cache : List (κ × Nat)) (y : κ) : Option Nat :=
  (cache.find? fun e => eq e.1 y).map Prod.snd

/-- The map of the objects whose keys `proj` accepts. -/
def view (proj : K → Option κ) (created : List K) : List (κ × Nat) :=
  created.zipIdx.filterMap fun e => (proj e.1).map fun y => (y, e.2)

/-- A map with a new entry, if there is a key. -/
def extend (cache : List (κ × Nat)) (y : Option κ) (a : Nat) : List (κ × Nat) :=
  cache ++ (y.map fun y => (y, a)).toList

theorem view_snoc {proj : K → Option κ} :
    view proj (created ++ [k]) = extend (view proj created) (proj k) created.length := by
  rw [view, List.zipIdx_append, List.filterMap_append]
  cases h : proj k <;> simp [view, extend, h]

/-- A map answers for all objects, if equality means equality of the keys that it holds. -/
theorem lookup_view {proj : K → Option κ} {eq : κ → κ → Bool} {y : κ}
    (h : ∀ k₀, same k₀ k = (proj k₀).any (eq · y)) :
    lookup eq (view proj created) y = created.findIdx? (same · k) := by
  induction created using List.reverseRecOn with
  | nil => rfl
  | append_singleton created l ih =>
    rw [view_snoc, lookup, extend, List.find?_append, List.findIdx?_append, ← ih, lookup]
    cases hfound : (view proj created).find? fun e => eq e.1 y with
    | some e => rfl
    | none =>
      cases hl : proj l with
      | none => simp [h, hl]
      | some x =>
        cases hx : eq x y <;> simp [h, hl, hx]

end Interning
