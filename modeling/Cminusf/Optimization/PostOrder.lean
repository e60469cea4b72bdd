import Cminusf.Optimization.Dominators
import Cminusf.Graph.IdomTree
import Mathlib.Data.Finset.Card

/-! The numbering computed by the depth-first traversal of `Dominators`. -/

namespace Cminusf

namespace Dominators

/-- The edges along which the traversal runs. -/
def Succ (m : Module) (a b : Nat) : Prop := b ∈ (m.blocks a).succBbs

/-- What a part of the traversal, entered at `roots`, adds to its state: the blocks `L`. -/
structure Visits (m : Module) (roots : List Nat) (s s' : PostOrder) (L : List Nat) : Prop where
  order : s'.order = s.order ++ L
  nodup : L.Nodup
  fresh : ∀ x ∈ L, x ∉ s.visited
  visited : ∀ x, x ∈ s'.visited ↔ x ∈ s.visited ∨ x ∈ L
  entered : ∀ b ∈ roots, b ∈ s'.visited
  closed : ∀ x ∈ L, ∀ y, Succ m x y → y ∈ s'.visited
  reaches : ∀ x ∈ L, ∃ b ∈ roots, Graph.Reaches (Succ m) b x
  frame : ∀ x, x ∉ L → s'.postOrderId x = s.postOrderId x
  index : ∀ x ∈ L, s'.order[s'.postOrderId x]? = some x
  pred : ∀ x ∈ L, x ∈ roots ∨ ∃ u ∈ L, Succ m u x ∧ s'.postOrderId x < s'.postOrderId u

variable {m : Module} {s s' s'' : PostOrder} {L L' roots roots' : List Nat} {b : Nat}

theorem Visits.nil (m : Module) (s : PostOrder) : Visits m [] s s [] := by
  constructor <;> simp

/-- A root that has been visited before adds nothing. -/
theorem Visits.skip (h : Visits m roots s s' L) (hb : b ∈ s.visited) :
    Visits m (b :: roots) s s' L where
  order := h.order
  nodup := h.nodup
  fresh := h.fresh
  visited := h.visited
  entered := by
    intro x hx
    rcases List.mem_cons.mp hx with rfl | hx
    · exact (h.visited x).mpr (.inl hb)
    · exact h.entered x hx
  closed := h.closed
  reaches x hx := by
    obtain ⟨c, hc, hcx⟩ := h.reaches x hx
    exact ⟨c, List.mem_cons_of_mem b hc, hcx⟩
  frame := h.frame
  index := h.index
  pred x hx := (h.pred x hx).imp_left (List.mem_cons_of_mem b)

theorem Visits.trans (h : Visits m roots s s' L) (h' : Visits m roots' s' s'' L') :
    Visits m (roots ++ roots') s s'' (L ++ L') := by
  have hdisj : ∀ x ∈ L, x ∉ L' := fun x hx hx' => h'.fresh x hx' ((h.visited x).mpr (.inr hx))
  have hlt : ∀ x ∈ L, s'.postOrderId x < s'.order.length :=
    fun x hx => (List.getElem?_eq_some_iff.mp (h.index x hx)).1
  constructor
  · rw [h'.order, h.order, List.append_assoc]
  · exact List.nodup_append'.mpr ⟨h.nodup, h'.nodup, fun x hx hx' => hdisj x hx hx'⟩
  · intro x hx hs
    rcases List.mem_append.mp hx with hx | hx
    · exact h.fresh x hx hs
    · exact h'.fresh x hx ((h.visited x).mpr (.inl hs))
  · intro x
    rw [h'.visited, h.visited, List.mem_append, or_assoc]
  · intro x hx
    rcases List.mem_append.mp hx with hx | hx
    · exact (h'.visited x).mpr (.inl (h.entered x hx))
    · exact h'.entered x hx
  · intro x hx y hxy
    rcases List.mem_append.mp hx with hx | hx
    · exact (h'.visited y).mpr (.inl (h.closed x hx y hxy))
    · exact h'.closed x hx y hxy
  · intro x hx
    rcases List.mem_append.mp hx with hx | hx
    · obtain ⟨c, hc, hcx⟩ := h.reaches x hx
      exact ⟨c, List.mem_append_left _ hc, hcx⟩
    · obtain ⟨c, hc, hcx⟩ := h'.reaches x hx
      exact ⟨c, List.mem_append_right _ hc, hcx⟩
  · intro x hx
    simp only [List.mem_append, not_or] at hx
    rw [h'.frame x hx.2, h.frame x hx.1]
  · intro x hx
    rcases List.mem_append.mp hx with hx | hx
    · rw [h'.frame x (hdisj x hx), h'.order, List.getElem?_append_left (hlt x hx), h.index x hx]
    · exact h'.index x hx
  · intro x hx
    rcases List.mem_append.mp hx with hx | hx
    · refine (h.pred x hx).imp (List.mem_append_left _) ?_
      rintro ⟨u, hu, hux, hlt⟩
      refine ⟨u, List.mem_append_left _ hu, hux, ?_⟩
      rwa [h'.frame x (hdisj x hx), h'.frame u (hdisj u hu)]
    · refine (h'.pred x hx).imp (List.mem_append_right _) ?_
      rintro ⟨u, hu, hux, hlt⟩
      exact ⟨u, List.mem_append_right _ hu, hux, hlt⟩

/-- The block is numbered after everything reached through its successors. -/
theorem Visits.finish (hb : b ∉ s.visited)
    (h : Visits m (m.blocks b).succBbs { s with visited := b :: s.visited } s' L) :
    Visits m [b] s
      { s' with
        postOrderId := Function.update s'.postOrderId b s'.order.length
        order := s'.order ++ [b] } (L ++ [b]) := by
  have hbL : b ∉ L := fun hL => h.fresh b hL List.mem_cons_self
  have hne : ∀ x ∈ L, x ≠ b := fun x hx he => hbL (he ▸ hx)
  have hlt : ∀ x ∈ L, s'.postOrderId x < s'.order.length :=
    fun x hx => (List.getElem?_eq_some_iff.mp (h.index x hx)).1
  have hvis : ∀ x, x ∈ s'.visited ↔ x ∈ s.visited ∨ x ∈ L ++ [b] := by
    intro x
    rw [h.visited]
    simp only [List.mem_cons, List.mem_append, List.not_mem_nil, or_false]
    tauto
  constructor
  · simp only [h.order, List.append_assoc]
  · exact List.nodup_append'.mpr ⟨h.nodup, List.nodup_singleton b, by simpa using hbL⟩
  · intro x hx hs
    rcases List.mem_append.mp hx with hx | hx
    · exact h.fresh x hx (List.mem_cons_of_mem b hs)
    · exact hb (List.mem_singleton.mp hx ▸ hs)
  · exact hvis
  · intro x hx
    exact (hvis x).mpr (.inr (List.mem_append_right _ hx))
  · intro x hx y hxy
    rcases List.mem_append.mp hx with hx | hx
    · exact h.closed x hx y hxy
    · exact h.entered y (List.mem_singleton.mp hx ▸ hxy)
  · intro x hx
    refine ⟨b, List.mem_singleton_self b, ?_⟩
    rcases List.mem_append.mp hx with hx | hx
    · obtain ⟨c, hc, hcx⟩ := h.reaches x hx
      exact Relation.ReflTransGen.head hc hcx
    · rw [List.mem_singleton.mp hx]
  · intro x hx
    simp only [List.mem_append, List.mem_singleton, not_or] at hx
    dsimp only
    rw [Function.update_of_ne hx.2, h.frame x hx.1]
  · intro x hx
    dsimp only
    rcases List.mem_append.mp hx with hx | hx
    · rw [Function.update_of_ne (hne x hx), List.getElem?_append_left (hlt x hx), h.index x hx]
    · rw [List.mem_singleton.mp hx, Function.update_self, List.getElem?_concat_length]
  · intro x hx
    rcases List.mem_append.mp hx with hx | hx
    · refine .inr ?_
      rcases h.pred x hx with hr | ⟨u, hu, hux, hxu⟩
      · refine ⟨b, by simp, hr, ?_⟩
        dsimp only
        rw [Function.update_self, Function.update_of_ne (hne x hx)]
        exact hlt x hx
      · refine ⟨u, List.mem_append_left _ hu, hux, ?_⟩
        dsimp only
        rwa [Function.update_of_ne (hne x hx), Function.update_of_ne (hne u hu)]
    · exact .inl hx

/-- The traversal of a successor list, given the result of every single visit. -/
theorem visits_foldlM {fuel : Nat}
    (ih : ∀ b s s', b ∉ s.visited → postOrderVisit m fuel b s = .ok s' → ∃ L, Visits m [b] s s' L)
    (bs : List Nat) (h : bs.foldlM
      (fun s b => if b ∈ s.visited then pure s else postOrderVisit m fuel b s) s = .ok s') :
    ∃ L, Visits m bs s s' L := by
  induction bs generalizing s with
  | nil =>
    cases h
    exact ⟨[], Visits.nil m _⟩
  | cons b bs ihbs =>
    rw [List.foldlM_cons] at h
    by_cases hb : b ∈ s.visited
    · rw [if_pos hb] at h
      obtain ⟨L, hL⟩ := ihbs h
      exact ⟨L, hL.skip hb⟩
    · rw [if_neg hb] at h
      cases hv : postOrderVisit m fuel b s with
      | error e =>
        rw [hv] at h
        cases h
      | ok t =>
        rw [hv] at h
        obtain ⟨L, hL⟩ := ih b s t hb hv
        obtain ⟨L', hL'⟩ := ihbs h
        exact ⟨L ++ L', hL.trans hL'⟩

theorem postOrderVisit_visits {fuel : Nat} (hb : b ∉ s.visited)
    (h : postOrderVisit m fuel b s = .ok s') : ∃ L, Visits m [b] s s' (L ++ [b]) := by
  induction fuel generalizing b s s' with
  | zero => cases h
  | succ fuel ih =>
    simp only [postOrderVisit] at h
    cases hf : (m.blocks b).succBbs.foldlM
        (fun s b => if b ∈ s.visited then pure s else postOrderVisit m fuel b s)
        { s with visited := b :: s.visited } with
    | error e =>
      rw [hf] at h
      cases h
    | ok t =>
      rw [hf] at h
      cases h
      obtain ⟨L, hL⟩ := visits_foldlM
        (fun b s s' hb h => (ih hb h).elim fun L hL => ⟨L ++ [b], hL⟩) _ hf
      exact ⟨L, hL.finish hb⟩

/-- The blocks of `blocks` that a traversal has still to visit. -/
def unvisited (blocks : List Nat) (s : PostOrder) : Nat :=
  (blocks.toFinset \ s.visited.toFinset).card

theorem unvisited_le {blocks : List Nat} (h : ∀ x ∈ s.visited, x ∈ s'.visited) :
    unvisited blocks s' ≤ unvisited blocks s := by
  refine Finset.card_le_card fun x hx => ?_
  simp only [Finset.mem_sdiff, List.mem_toFinset] at hx ⊢
  exact ⟨hx.1, fun hs => hx.2 (h x hs)⟩

theorem unvisited_cons {blocks : List Nat} (hb : b ∈ blocks) (hs : b ∉ s.visited) :
    unvisited blocks { s with visited := b :: s.visited } < unvisited blocks s := by
  refine Finset.card_lt_card ⟨fun x hx => ?_, fun hsub => ?_⟩
  · simp only [Finset.mem_sdiff, List.mem_toFinset, List.mem_cons, not_or] at hx ⊢
    exact ⟨hx.1, hx.2.2⟩
  · have := @hsub b (by simp [hb, hs])
    simp at this

/-- The traversal ends when its fuel exceeds the number of blocks it can visit. -/
theorem postOrderVisit_isOk {blocks : List Nat}
    (hclosed : ∀ a ∈ blocks, ∀ c, Succ m a c → c ∈ blocks) {fuel : Nat} (hb : b ∈ blocks)
    (hs : b ∉ s.visited) (hf : unvisited blocks s < fuel) :
    ∃ s', postOrderVisit m fuel b s = .ok s' := by
  induction fuel generalizing b s with
  | zero => omega
  | succ fuel ih =>
    have fold : ∀ (bs : List Nat) (t : PostOrder), (∀ c ∈ bs, c ∈ blocks) →
        unvisited blocks t < fuel → ∃ t', bs.foldlM
          (fun s b => if b ∈ s.visited then pure s else postOrderVisit m fuel b s) t = .ok t' := by
      intro bs
      induction bs with
      | nil => exact fun t _ _ => ⟨t, rfl⟩
      | cons c bs ihbs =>
        intro t hbs ht
        rw [List.foldlM_cons]
        by_cases hc : c ∈ t.visited
        · rw [if_pos hc]
          exact ihbs t (fun x hx => hbs x (List.mem_cons_of_mem c hx)) ht
        · obtain ⟨t', ht'⟩ := ih (hbs c List.mem_cons_self) hc ht
          rw [if_neg hc, ht']
          obtain ⟨L, hL⟩ := postOrderVisit_visits hc ht'
          refine ihbs t' (fun x hx => hbs x (List.mem_cons_of_mem c hx)) ?_
          exact lt_of_le_of_lt (unvisited_le fun x hx => (hL.visited x).mpr (.inl hx)) ht
    have hlt := unvisited_cons hb hs
    obtain ⟨t, ht⟩ := fold (m.blocks b).succBbs { s with visited := b :: s.visited }
      (hclosed b hb) (by omega)
    exact ⟨_, by rw [postOrderVisit, ht]; rfl⟩

/-- A control-flow graph: the entry block is the first one, and the two edge lists of a block
agree. -/
structure Cfg (m : Module) (blocks : List Nat) (entry : Nat) : Prop where
  head : blocks.head? = some entry
  closed : ∀ a ∈ blocks, ∀ b, Succ m a b → b ∈ blocks
  pre : ∀ b ∈ blocks, ∀ a, a ∈ (m.blocks b).preBbs ↔ a ∈ blocks ∧ Succ m a b

theorem Cfg.entry_mem {blocks : List Nat} {entry : Nat} (h : Cfg m blocks entry) : entry ∈ blocks :=
  List.mem_of_mem_head? h.head

theorem Cfg.reaches_mem {blocks : List Nat} {entry : Nat} (h : Cfg m blocks entry)
    (hb : Graph.Reaches (Succ m) entry b) : b ∈ blocks := by
  induction hb with
  | refl => exact h.entry_mem
  | tail _ hab ih => exact h.closed _ ih _ hab

/-- The control-flow graph of a function: the entry block is the first one and has no
predecessor, and the two edge lists of a block agree. -/
structure FunctionCfg (m : Module) (blocks : List Nat) (entry : Nat) : Prop where
  head : blocks.head? = some entry
  closed : ∀ a ∈ blocks, ∀ b, Succ m a b → b ∈ blocks
  pre : ∀ b ∈ blocks, ∀ a, a ∈ (m.blocks b).preBbs ↔ a ∈ blocks ∧ Succ m a b
  entry_pre : (m.blocks entry).preBbs = []

theorem FunctionCfg.cfg {blocks : List Nat} {entry : Nat} (h : FunctionCfg m blocks entry) :
    Cfg m blocks entry := ⟨h.head, h.closed, h.pre⟩

theorem FunctionCfg.entry_mem {blocks : List Nat} {entry : Nat}
    (h : FunctionCfg m blocks entry) : entry ∈ blocks := h.cfg.entry_mem

theorem FunctionCfg.reaches_mem {blocks : List Nat} {entry : Nat}
    (h : FunctionCfg m blocks entry) (hb : Graph.Reaches (Succ m) entry b) : b ∈ blocks :=
  h.cfg.reaches_mem hb

/-- What `create_reverse_post_order` leaves behind. -/
structure IsReversePostOrder (m : Module) (entry : Nat) (d : Dominators) : Prop where
  mem : ∀ b, b ∈ d.reversePostOrder ↔ Graph.Reaches (Succ m) entry b
  sorted : d.reversePostOrder.Pairwise (fun a b => d.postOrderId b < d.postOrderId a)
  head : d.reversePostOrder.head? = some entry
  numbering : Graph.Numbering (Succ m) entry d.postOrderId

theorem createReversePostOrder_spec {blocks : List Nat} {entry fuel : Nat} {d : Dominators}
    (hcfg : Cfg m blocks entry) (hf : blocks.length < fuel) :
    ∃ d', createReversePostOrder m entry fuel d = .ok d' ∧ IsReversePostOrder m entry d' ∧
      d'.idom = d.idom ∧ d'.domFrontier = d.domFrontier ∧
      d'.domTreeSuccBlocks = d.domTreeSuccBlocks := by
  have hlen : unvisited blocks ⟨[], fun _ => 0, []⟩ < fuel := by
    refine lt_of_le_of_lt ?_ hf
    simpa [unvisited] using List.toFinset_card_le blocks
  obtain ⟨s, hs⟩ := postOrderVisit_isOk (s := ⟨[], fun _ => 0, []⟩) hcfg.closed hcfg.entry_mem
    List.not_mem_nil hlen
  obtain ⟨L, hL⟩ := postOrderVisit_visits List.not_mem_nil hs
  have horder : s.order = L ++ [entry] := by simpa using hL.order
  have hvis : ∀ x, x ∈ s.visited ↔ x ∈ L ++ [entry] := by
    intro x
    simpa using hL.visited x
  have hmem : ∀ b, b ∈ s.order ↔ Graph.Reaches (Succ m) entry b := by
    intro b
    rw [horder]
    constructor
    · intro hb
      obtain ⟨c, hc, hcb⟩ := hL.reaches b hb
      rwa [List.mem_singleton.mp hc] at hcb
    · intro hb
      induction hb with
      | refl => simp
      | tail _ hab ih => exact (hvis _).mp (hL.closed _ ih _ hab)
  have hindex : ∀ x ∈ s.order, s.order[s.postOrderId x]? = some x := by
    intro x hx
    exact hL.index x (horder ▸ hx)
  have hnodup : s.order.Nodup := horder ▸ hL.nodup
  have hlt : ∀ x ∈ s.order, s.postOrderId x < s.order.length :=
    fun x hx => (List.getElem?_eq_some_iff.mp (hindex x hx)).1
  have hentry : s.postOrderId entry = L.length := by
    have h1 := hindex entry (by simp [horder])
    have h2 : s.order[L.length]? = some entry := by simp [horder]
    exact (List.getElem?_inj (hlt entry (by simp [horder])) hnodup).mp (h1.trans h2.symm)
  refine ⟨{ d with reversePostOrder := s.order.reverse, postOrderId := s.postOrderId },
    by rw [createReversePostOrder, hs]; rfl, ⟨?_, ?_, ?_, ⟨?_, ?_, ?_⟩⟩, rfl, rfl, rfl⟩
  · intro b
    rw [List.mem_reverse, hmem]
  · dsimp only
    rw [List.pairwise_reverse, List.pairwise_iff_getElem]
    intro i j hi hj hij
    have hid : ∀ (k : Nat) (hk : k < s.order.length), s.postOrderId s.order[k] = k := by
      intro k hk
      have h1 := hindex s.order[k] (List.getElem_mem hk)
      exact (List.getElem?_inj (hlt _ (List.getElem_mem hk)) hnodup).mp
        (h1.trans (List.getElem?_eq_getElem hk).symm)
    rw [hid i hi, hid j hj]
    exact hij
  · simp [horder]
  · intro v hv hne
    have h1 := hlt v ((hmem v).mpr hv)
    have h2 : s.postOrderId v ≠ L.length := by
      intro he
      have := hindex v ((hmem v).mpr hv)
      rw [he, horder, List.getElem?_concat_length] at this
      exact hne (Option.some.inj this).symm
    simp only [horder, List.length_append, List.length_singleton] at h1
    dsimp only
    omega
  · intro v hv hne
    rcases hL.pred v (horder ▸ (hmem v).mpr hv) with h | ⟨u, hu, huv, hlt⟩
    · exact absurd (List.mem_singleton.mp h) hne
    · exact ⟨u, huv, (hmem u).mp (horder ▸ hu), hlt⟩
  · intro u v hu hv he
    have h1 := hindex u ((hmem u).mpr hu)
    have h2 := hindex v ((hmem v).mpr hv)
    dsimp only at he
    rw [he, h2] at h1
    exact (Option.some.inj h1).symm

end Dominators

end Cminusf
