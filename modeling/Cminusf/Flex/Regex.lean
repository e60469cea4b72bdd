import Mathlib.Computability.Language

/-! Regular expressions over character classes, and the choice of a scanner among its rules: the
longest match, and the first rule among those that match as much. -/

namespace Cminusf

inductive Regex (α : Type) where
  | eps
  | cls (p : α → Bool)
  | seq (r s : Regex α)
  | alt (r s : Regex α)
  | star (r : Regex α)

namespace Regex

variable {α β : Type} {r s : Regex α} {c : α} {xs ys text rest : List α} {n : Nat} {b : β}
  {rules : List (Regex α × β)} {p : α → Bool}

/-- The texts that an expression matches. -/
def language : Regex α → Language α
  | eps => 1
  | cls p => { xs | ∃ c, p c ∧ xs = [c] }
  | seq r s => r.language * s.language
  | alt r s => r.language + s.language
  | star r => KStar.kstar r.language

def plus (r : Regex α) : Regex α := .seq r (.star r)

/-- A text between quotes. -/
def lit [DecidableEq α] : List α → Regex α
  | [] => .eps
  | c :: cs => .seq (.cls (· = c)) (lit cs)

def nullable : Regex α → Bool
  | eps => true
  | cls _ => false
  | seq r s => r.nullable && s.nullable
  | alt r s => r.nullable || s.nullable
  | star _ => true

/-- What is left to match after `c`. -/
def deriv (c : α) : Regex α → Regex α
  | eps => .cls fun _ => false
  | cls p => if p c then .eps else .cls fun _ => false
  | seq r s => if r.nullable then .alt (.seq (r.deriv c) s) (s.deriv c) else .seq (r.deriv c) s
  | alt r s => .alt (r.deriv c) (s.deriv c)
  | star r => .seq (r.deriv c) (.star r)

def accepts (r : Regex α) : List α → Bool
  | [] => r.nullable
  | c :: xs => (r.deriv c).accepts xs

theorem mem_eps : xs ∈ (eps : Regex α).language ↔ xs = [] := Iff.rfl

theorem mem_cls : xs ∈ (cls p).language ↔ ∃ c, p c ∧ xs = [c] := Iff.rfl

theorem mem_seq : xs ∈ (seq r s).language ↔
    ∃ ys ∈ r.language, ∃ zs ∈ s.language, ys ++ zs = xs := Iff.rfl

theorem mem_alt : xs ∈ (alt r s).language ↔ xs ∈ r.language ∨ xs ∈ s.language := Iff.rfl

theorem nil_mem_star : [] ∈ (star r).language := Language.nil_mem_kstar _

theorem mem_star_cons : c :: xs ∈ (star r).language ↔
    ∃ ys, c :: ys ∈ r.language ∧ ∃ zs ∈ (star r).language, ys ++ zs = xs := by
  constructor
  · intro h
    obtain ⟨S, hS, hr⟩ := Language.mem_kstar_iff_exists_nonempty.mp h
    cases S with
    | nil => cases hS
    | cons y S =>
      obtain ⟨hy, hne⟩ := hr y List.mem_cons_self
      obtain ⟨d, ys, rfl⟩ := List.exists_cons_of_ne_nil hne
      rw [List.flatten_cons, List.cons_append, List.cons.injEq] at hS
      obtain ⟨rfl, rfl⟩ := hS
      exact ⟨ys, hy, S.flatten, Language.mem_kstar.mpr
        ⟨S, rfl, fun z hz => (hr z (List.mem_cons_of_mem _ hz)).1⟩, rfl⟩
  · rintro ⟨ys, hy, zs, hz, rfl⟩
    obtain ⟨S, rfl, hS⟩ := Language.mem_kstar.mp hz
    refine Language.mem_kstar.mpr ⟨(c :: ys) :: S, rfl, fun z hz => ?_⟩
    rcases List.mem_cons.mp hz with rfl | hz
    · exact hy
    · exact hS z hz

/-- The first part of a sequence is empty, or it begins with the first character. -/
theorem mem_seq_cons : c :: xs ∈ (seq r s).language ↔
    (∃ ys, c :: ys ∈ r.language ∧ ∃ zs ∈ s.language, ys ++ zs = xs) ∨
      [] ∈ r.language ∧ c :: xs ∈ s.language := by
  rw [mem_seq]
  constructor
  · rintro ⟨ys, hy, zs, hz, he⟩
    cases ys with
    | nil =>
      rw [List.nil_append] at he
      exact .inr ⟨hy, he ▸ hz⟩
    | cons d ys =>
      obtain ⟨rfl, rfl⟩ := List.cons.inj he
      exact .inl ⟨ys, hy, zs, hz, rfl⟩
  · rintro (⟨ys, hy, zs, hz, rfl⟩ | ⟨hnil, hs⟩)
    · exact ⟨c :: ys, hy, zs, hz, rfl⟩
    · exact ⟨[], hnil, c :: xs, hs, rfl⟩

theorem nullable_iff : r.nullable ↔ [] ∈ r.language := by
  induction r with
  | eps => simp [nullable, mem_eps]
  | cls p => simp [nullable, mem_cls]
  | seq r s ihr ihs => simp [nullable, mem_seq, ihr, ihs]
  | alt r s ihr ihs => simp [nullable, mem_alt, ihr, ihs]
  | star r _ => simp [nullable, nil_mem_star]

theorem mem_deriv : xs ∈ (r.deriv c).language ↔ c :: xs ∈ r.language := by
  induction r generalizing xs with
  | eps => simp [deriv, mem_eps, mem_cls]
  | cls p =>
    by_cases hp : p c
    · simp [deriv, mem_eps, mem_cls, hp]
    · simp [deriv, mem_cls, hp]
  | seq r s ihr ihs =>
    have hfirst : xs ∈ (seq (r.deriv c) s).language ↔
        ∃ ys, c :: ys ∈ r.language ∧ ∃ zs ∈ s.language, ys ++ zs = xs := by
      simp only [mem_seq, ihr]
    rw [mem_seq_cons, deriv, ← nullable_iff, ← hfirst]
    by_cases hn : r.nullable
    · rw [if_pos hn, mem_alt, ihs]
      simp [hn]
    · rw [if_neg hn]
      simp [hn]
  | alt r s ihr ihs => simp only [deriv, mem_alt, ihr, ihs]
  | star r ih =>
    rw [mem_star_cons]
    simp only [deriv, mem_seq, ih]

theorem accepts_iff : r.accepts xs ↔ xs ∈ r.language := by
  induction xs generalizing r with
  | nil => exact nullable_iff
  | cons c xs ih => exact ih.trans mem_deriv

theorem mem_lit [DecidableEq α] : text ∈ (lit xs).language ↔ text = xs := by
  induction xs generalizing text with
  | nil => exact mem_eps
  | cons c xs ih =>
    simp only [lit, mem_seq, mem_cls]
    constructor
    · rintro ⟨ys, ⟨d, hd, rfl⟩, zs, hz, rfl⟩
      rw [ih.mp hz, of_decide_eq_true hd]
      rfl
    · rintro rfl
      exact ⟨[c], ⟨c, by simp, rfl⟩, xs, ih.mpr rfl, rfl⟩

theorem mem_star_cls : text ∈ (star (cls p)).language ↔ ∀ c ∈ text, p c := by
  induction text with
  | nil => simp [nil_mem_star]
  | cons c text ih =>
    rw [mem_star_cons]
    constructor
    · rintro ⟨ys, ⟨d, hd, he⟩, zs, hz, rfl⟩
      obtain ⟨rfl, rfl⟩ := List.cons.inj he
      exact List.forall_mem_cons.mpr ⟨hd, ih.mp hz⟩
    · intro h
      obtain ⟨hc, htext⟩ := List.forall_mem_cons.mp h
      exact ⟨[], ⟨c, hc, rfl⟩, text, ih.mpr htext, rfl⟩

theorem mem_plus_cls : text ∈ (plus (cls p)).language ↔ text ≠ [] ∧ ∀ c ∈ text, p c := by
  rw [plus, mem_seq]
  constructor
  · rintro ⟨ys, ⟨d, hd, rfl⟩, zs, hz, rfl⟩
    exact ⟨by simp, List.forall_mem_cons.mpr ⟨hd, mem_star_cls.mp hz⟩⟩
  · rintro ⟨hne, h⟩
    obtain ⟨c, text, rfl⟩ := List.exists_cons_of_ne_nil hne
    obtain ⟨hc, htext⟩ := List.forall_mem_cons.mp h
    exact ⟨[c], ⟨c, hc, rfl⟩, text, mem_star_cls.mpr htext, rfl⟩

/-- The first rule that matches the text. -/
def first (rules : List (Regex α × β)) (text : List α) : Option β :=
  (rules.find? fun r => r.1.accepts text).map Prod.snd

/-- The longest match of at most `n` characters, which is not empty. -/
def longest (rules : List (Regex α × β)) (xs : List α) : Nat → Option (Nat × β)
  | 0 => none
  | n + 1 =>
    match first rules (xs.take (n + 1)) with
    | some b => some (n + 1, b)
    | none => longest rules xs n

def select (rules : List (Regex α × β)) (xs : List α) : Option (Nat × β) :=
  longest rules xs xs.length

theorem first_cons : first ((r, b) :: rules) text = if r.accepts text then some b else
    first rules text := by
  by_cases h : r.accepts text
  · simp [first, h]
  · simp [first, h]

theorem first_append (rules rules' : List (Regex α × β)) :
    first (rules ++ rules') text = (first rules text).or (first rules' text) := by
  induction rules with
  | nil => rfl
  | cons rule rules ih =>
    obtain ⟨r, b⟩ := rule
    rw [List.cons_append, first_cons, first_cons, ih]
    split <;> rfl

/-- Rules for single texts. -/
theorem first_lits {γ : Type} [DecidableEq α] (key : γ → List α) (table : List (γ × β)) :
    first (table.map fun e => (lit (key e.1), e.2)) text =
      (table.find? fun e => key e.1 = text).map Prod.snd := by
  induction table with
  | nil => rfl
  | cons e table ih =>
    rw [List.map_cons, first_cons, ih]
    by_cases h : key e.1 = text
    · rw [if_pos (accepts_iff.mpr (mem_lit.mpr h.symm))]
      simp [h]
    · rw [if_neg (fun ha => h (mem_lit.mp (accepts_iff.mp ha)).symm)]
      simp [h]

theorem longest_bounds {m : Nat} (h : longest rules xs m = some (n, b)) : 0 < n ∧ n ≤ m := by
  induction m with
  | zero => cases h
  | succ m ih =>
    rw [longest] at h
    split at h
    · cases h
      omega
    · have := ih h
      omega

theorem longest_eq {m : Nat} (hn : 0 < n) (hm : n ≤ m) (hb : first rules (xs.take n) = some b)
    (hmax : ∀ k, n < k → k ≤ m → first rules (xs.take k) = none) :
    longest rules xs m = some (n, b) := by
  induction m with
  | zero => omega
  | succ m ih =>
    by_cases hlast : n = m + 1
    · subst hlast
      rw [longest, hb]
    · rw [longest, hmax (m + 1) (by omega) (Nat.le_refl _)]
      exact ih (by omega) fun k hk hkm => hmax k hk (by omega)

theorem longest_eq_none {m : Nat}
    (h : ∀ k, 0 < k → k ≤ m → first rules (xs.take k) = none) : longest rules xs m = none := by
  induction m with
  | zero => rfl
  | succ m ih =>
    rw [longest, h (m + 1) (Nat.succ_pos _) (Nat.le_refl _)]
    exact ih fun k hk hkm => h k hk (by omega)

/-- A text is selected when a rule matches it and none matches more. -/
theorem select_append (hne : text ≠ []) (hb : first rules text = some b)
    (hmax : ∀ more, more ≠ [] → (∃ end', rest = more ++ end') →
      first rules (text ++ more) = none) :
    select rules (text ++ rest) = some (text.length, b) := by
  apply longest_eq (List.length_pos_of_ne_nil hne) (by simp)
  · rw [List.take_left]
    exact hb
  · intro k hk hkm
    have htake : (text ++ rest).take k = text ++ rest.take (k - text.length) := by
      rw [List.take_append, List.take_of_length_le (by omega)]
    rw [htake]
    apply hmax
    · intro hnil
      have hlen := congrArg List.length hnil
      simp only [List.length_take, List.length_append, List.length_nil] at hlen hkm
      omega
    · exact ⟨rest.drop (k - text.length), (List.take_append_drop _ _).symm⟩

theorem select_eq_none (h : ∀ text rest, text ≠ [] → xs = text ++ rest → first rules text = none) :
    select rules xs = none := by
  apply longest_eq_none
  intro k hk hkm
  apply h _ (xs.drop k) _ (List.take_append_drop k xs).symm
  intro hnil
  have hlen := congrArg List.length hnil
  simp only [List.length_take, List.length_nil] at hlen
  omega

end Regex

end Cminusf
