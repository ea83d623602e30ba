import Sigil.Proofs.Matching
import Sigil.Proofs.Pool.Graph

namespace Sigil.Pool

open Relation (ReflTransGen)

variable {p q : Pool} {id m n : PatternId} {k : Kind PatternId}

structure KeepsPlace (f : Node → Node) : Prop where
  kind : ∀ node, (f node).kind = node.kind
  supers : ∀ node, (f node).supers = node.supers
  summary : ∀ node, (f node).summary = node.summary
  canonical : ∀ node, (f node).canonical = node.canonical
  lead : ∀ node, (f node).lead = node.lead

def Registered (p : Pool) : Prop := ∀ shape id,
  (shape, id) ∈ p.representatives ↔ p.isCanonical id = true ∧ shape = (p.summary id).shape

/-- The representatives are told right where one node is canonical no longer and has been
forgotten. -/
theorem Registered.of_forgotten (h : p.Registered) {node : Node} (hnode : p.get? id = some node)
    (hreps : ∀ entry, entry ∈ q.representatives ↔
      entry ∈ p.representatives ∧ (node.canonical = true → entry.2 ≠ id))
    (hcanonical : ∀ n, q.isCanonical n = if n = id then false else p.isCanonical n)
    (hsummary : ∀ n, n ≠ id → q.summary n = p.summary n) : q.Registered := by
  intro shape n
  rw [hreps, h shape n, hcanonical]
  by_cases hn : n = id
  · have hsame : p.isCanonical n = node.canonical := by rw [isCanonical, hn, hnode, Option.any_some]
    rw [if_pos hn, hsame]
    simp only [hn, Bool.false_eq_true, false_and, iff_false]
    rintro ⟨⟨hcan, -⟩, hne⟩
    exact hne hcan rfl
  · rw [if_neg hn, hsummary n hn]
    simp [hn]

/-- Digests tell all shapes apart. -/
def Discerning (p : Pool) : Prop := p.sameDigest = fun s t => decide (s = t)

namespace Discerning

theorem sameDigest_iff (h : p.Discerning) {s t : Shape} : p.sameDigest s t = true ↔ s = t := by
  rw [h, decide_eq_true_iff]

theorem sameSummary_iff (h : p.Discerning) {s t : Summary} : p.sameSummary s t = true ↔ s = t := by
  unfold sameSummary
  simp only [Bool.and_eq_true, beq_iff_eq, h.sameDigest_iff, and_assoc]
  constructor
  · rintro ⟨hsample, hstarts, hskips, hshape⟩
    cases s
    cases t
    simp_all
  · rintro rfl
    exact ⟨rfl, rfl, rfl, rfl⟩

end Discerning

/-- The invariant of pools. -/
structure WellFormed (p : Pool) : Prop extends Linked p where
  valid : ∀ id k, p.kind? id = some k → k.Valid
  settled : ∀ id k, p.kind? id = some k → p.summary id = p.summarize k
  canonical_sub : ∀ m n, p.Embeds m n → p.isCanonical m = true → p.isCanonical n = true
  registered : p.Registered
  distinct : (p.representatives.map (·.1)).Nodup
  discerning : p.Discerning

/-- A digest that tells all structures apart is as good as the structures. -/
theorem ofDigest_eq {δ : Type} [DecidableEq δ] {digest : Shape → δ}
    (hdigest : Function.Injective digest) : ofDigest digest = {} := by
  have hsame : (fun s t => decide (digest s = digest t)) = fun s t => decide (s = t) := by
    funext s t
    exact decide_eq_decide.2 hdigest.eq_iff
  rw [ofDigest, hsame]

theorem wellFormed_empty : WellFormed {} where
  mem_supers m n := by simp [supers, Embeds, kind?, get?]
  nodup_supers n := by simp [supers, get?]
  acyclic := by
    intro n hn
    obtain ⟨m, hm, -⟩ := Relation.TransGen.head'_iff.1 hn
    exact absurd hm.contains (by simp [contains, get?])
  live_eq := rfl
  valid id k h := by simp [kind?, get?] at h
  settled id k h := by simp [kind?, get?] at h
  canonical_sub m n h := absurd h.contains (by simp [contains, get?])
  registered shape id := by simp [isCanonical, get?]
  distinct := List.nodup_nil
  discerning := rfl

/-- The layer is summarized the same where its sub-patterns are. -/
theorem summarize_congr (h : ∀ s ∈ k.subs, q.summary s = p.summary s) :
    q.summarize k = p.summarize k :=
  congrArg Summary.ofKind (Kind.map_congr h)

namespace WellFormed

theorem congr (h : p.WellFormed) (hkind : q.kind? = p.kind?) (hsupers : q.supers = p.supers)
    (hsummary : q.summary = p.summary) (hcanonical : q.isCanonical = p.isCanonical)
    (hreps : q.representatives = p.representatives) (hlive : q.live = p.live)
    (hsize : q.nodes.size = p.nodes.size) (hdigest : q.sameDigest = p.sameDigest) :
    q.WellFormed where
  toLinked := h.toLinked.congr hkind hsupers hlive hsize
  valid := by rw [hkind]; exact h.valid
  settled := by
    unfold summarize
    rw [hkind, hsummary]
    exact h.settled
  canonical_sub := by rw [embeds_congr hkind, hcanonical]; exact h.canonical_sub
  registered := by
    unfold Registered
    rw [hreps, hcanonical, hsummary]
    exact h.registered
  distinct := hreps ▸ h.distinct
  discerning := hdigest.trans h.discerning

theorem modify (h : p.WellFormed) {f : Node → Node} (hf : KeepsPlace f) (id : PatternId) :
    (p.modify id f).WellFormed :=
  h.congr (kind?_modify hf.kind) (supers_modify hf.supers) (summary_modify hf.summary)
    (isCanonical_modify hf.canonical) rfl rfl (size_modify ..) rfl

theorem contains_subs (h : p.WellFormed) (hk : p.kind? id = some k) :
    ∀ s ∈ k.subs, p.contains s = true :=
  fun _ hs => h.contains_sub ⟨k, hk, hs⟩

end WellFormed

/-! ## Trees -/

theorem exists_node_of_tree? {t : Tree Note} (h : p.tree? id = some t) :
    ∃ node, p.get? id = some node ∧ t.note = node.note := by
  unfold tree? at h
  cases hsize : p.nodes.size with
  | zero =>
    rw [hsize] at h
    exact absurd h (by simp [treeWithin?])
  | succ fuel =>
    rw [hsize] at h
    simp only [treeWithin?, Option.bind_eq_bind, Option.bind_eq_some_iff, Option.pure_def] at h
    obtain ⟨node, hnode, k, -, heq⟩ := h
    rw [← Option.some.inj heq]
    exact ⟨node, hnode, rfl⟩

theorem tree?_eq_none (hid : p.contains id = false) : p.tree? id = none := by
  rw [Option.eq_none_iff_forall_ne_some]
  intro t ht
  obtain ⟨node, hnode, -⟩ := exists_node_of_tree? ht
  rw [contains_of_get? hnode] at hid
  cases hid

/-- The unfolding of a pattern says what the pool says about it. -/
structure Unfolds (p : Pool) (id : PatternId) (t : Tree Note) : Prop where
  summary : t.note.summary = p.summary id
  valid : t.Valid
  faithful : t.Faithful
  origin : t.Each fun s => ∃ n, ReflTransGen p.Embeds id n ∧ p.tree? n = some s

theorem Unfolds.shape {t : Tree Note} (h : p.Unfolds id t) : t.shape = (p.summary id).shape := by
  rw [← h.summary, h.faithful.root, Tree.shape_deduced]

theorem Unfolds.sample {t : Tree Note} (h : p.Unfolds id t) : t.sample = p.sample id :=
  congrArg Summary.sample h.summary

/-- Trees unfold layer by layer: no path is cut short by the fuel. -/
theorem Linked.tree?_eq (h : p.Linked) {node : Node} (hnode : p.get? id = some node) :
    p.tree? id = (node.kind.traverse p.tree?).map (.node node.note) := by
  have hid : p.contains id = true := contains_of_get? hnode
  have hmore : ∀ more, p.nodes.size ≤ more → p.treeWithin? more id =
      p.treeWithin? p.nodes.size id := by
    apply h.fuel_induction
      (P := fun fuel m => ∀ more, fuel ≤ more → p.treeWithin? more m = p.treeWithin? fuel m) _ hid
    intro fuel m ih more hle
    obtain ⟨more, rfl⟩ : ∃ n, more = n + 1 := ⟨more - 1, by omega⟩
    rw [treeWithin?, treeWithin?]
    cases hm : p.get? m with
    | none => rfl
    | some node =>
      have hkind : p.kind? m = some node.kind := kind?_of_get? hm
      exact congrArg (· >>= fun k => some (Tree.node node.note k))
        (Kind.traverse_congr fun s hs => ih s ⟨_, hkind, hs⟩ more (by omega))
  rw [tree?, ← hmore _ (Nat.le_succ _), treeWithin?, hnode]
  show (node.kind.traverse p.tree?).bind _ = _
  cases node.kind.traverse p.tree? <;> rfl

theorem WellFormed.exists_tree (h : p.WellFormed) (hid : p.contains id = true) :
    ∃ t, p.tree? id = some t ∧ p.Unfolds id t := by
  refine h.induction (P := fun id => p.contains id = true → ∃ t, p.tree? id = some t ∧
    p.Unfolds id t) ?_ hid hid
  intro m ih hm
  obtain ⟨node, hnode⟩ := Option.isSome_iff_exists.1 hm
  have hkind : p.kind? m = some node.kind := kind?_of_get? hnode
  obtain ⟨k, hk, hrel⟩ := Kind.exists_traverse (R := fun s t => p.Unfolds s t) (k := node.kind)
    fun s hs => ih s ⟨_, hkind, hs⟩ (h.contains_subs hkind s hs)
  -- each sub-tree unfolds one of the sub-patterns
  have hsub : ∀ t ∈ k.subs, ∃ s, p.Embeds m s ∧ p.Unfolds s t := by
    intro t ht
    obtain ⟨s, hs, hunfolds⟩ := hrel.exists_of_mem ht
    exact ⟨s, ⟨_, hkind, hs⟩, hunfolds⟩
  have hsummary : node.note.summary = p.summary m := by rw [Pool.summary, hnode]; rfl
  have htree : p.tree? m = some (.node node.note k) := by rw [h.tree?_eq hnode, hk, Option.map_some]
  refine ⟨.node node.note k, htree, hsummary, ?_, ?_, ?_⟩
  · apply Tree.Each.node (hrel.valid_iff.1 (h.valid m _ hkind))
    intro t ht
    obtain ⟨s, -, hunfolds⟩ := hsub t ht
    exact hunfolds.valid
  · apply Tree.Each.node
    · have hmap : node.kind.map p.summary = k.map Tree.deduced := by
        apply hrel.map_eq
        intro s t hst
        rw [← hst.faithful.root, hst.summary]
      rw [Tree.deduced_node, ← hmap]
      exact hsummary.trans (h.settled m _ hkind)
    · intro t ht
      obtain ⟨s, -, hunfolds⟩ := hsub t ht
      exact hunfolds.faithful
  · apply Tree.Each.node ⟨m, ReflTransGen.refl, htree⟩
    intro t ht
    obtain ⟨s, hms, hunfolds⟩ := hsub t ht
    apply hunfolds.origin.mono
    intro u hu
    obtain ⟨n, hsn, hu⟩ := hu
    exact ⟨n, ReflTransGen.head hms hsn, hu⟩

/-- The sub-trees of a tree unfold the sub-patterns of its pattern. -/
theorem WellFormed.rel_of_tree? (h : p.WellFormed) {t : Tree Note} (ht : p.tree? id = some t) :
    ∃ k, p.kind? id = some k ∧ k.Rel (fun s u => p.Unfolds s u) t.kind := by
  obtain ⟨node, hnode, -⟩ := exists_node_of_tree? ht
  have hkind : p.kind? id = some node.kind := kind?_of_get? hnode
  obtain ⟨k, hk, hrel⟩ := Kind.exists_traverse (R := fun s t => p.Unfolds s t) (k := node.kind)
    fun s hs => h.exists_tree (h.contains_subs hkind s hs)
  rw [h.tree?_eq hnode, hk, Option.map_some] at ht
  rw [← Option.some.inj ht]
  exact ⟨node.kind, hkind, hrel⟩

theorem WellFormed.unfolds (h : p.WellFormed) {t : Tree Note} (ht : p.tree? id = some t) :
    p.Unfolds id t := by
  obtain ⟨node, hnode, -⟩ := exists_node_of_tree? ht
  obtain ⟨u, hu, hunfolds⟩ := h.exists_tree (contains_of_get? hnode)
  rw [ht, Option.some.injEq] at hu
  rwa [hu]

/-- A layer of a tree stands over the trees of the sub-patterns. -/
theorem WellFormed.exists_layer (h : p.WellFormed) {node : Node} (hnode : p.get? id = some node)
    {t : Tree Note} (ht : p.tree? id = some t) :
    ∃ k, t = .node node.note k ∧
      node.kind.Rel (fun s u => p.Embeds id s ∧ p.tree? s = some u) k := by
  have hkind : p.kind? id = some node.kind := kind?_of_get? hnode
  obtain ⟨k, hk, hrel⟩ := Kind.exists_traverse (R := fun s u => p.Embeds id s ∧ p.tree? s = some u)
    (f := p.tree?)
    (k := node.kind) fun s hs => by
      obtain ⟨u, hu, -⟩ := h.exists_tree (h.contains_subs hkind s hs)
      exact ⟨u, hu, ⟨_, hkind, hs⟩, hu⟩
  rw [h.tree?_eq hnode, hk, Option.map_some] at ht
  exact ⟨k, (Option.some.inj ht).symm, hrel⟩

/-- The shape alone decides a summary. -/
theorem WellFormed.summary_eq_deduced (h : p.WellFormed) (hid : p.contains id = true) :
    p.summary id = (p.summary id).shape.deduced := by
  obtain ⟨t, -, hunfolds⟩ := h.exists_tree hid
  rw [← hunfolds.shape, Tree.deduced_shape, ← hunfolds.faithful.root, hunfolds.summary]

theorem WellFormed.summarize_eq_deduced (h : p.WellFormed)
    (hk : ∀ s ∈ k.subs, p.contains s = true) : p.summarize k = (p.summarize k).shape.deduced := by
  have hshape : (p.summarize k).shape = .node () (k.map fun s => (p.summary s).shape) :=
    congrArg (Tree.node ()) (Kind.map_map p.summary (·.shape) k)
  rw [hshape, Tree.deduced_node, Kind.map_map]
  exact congrArg Summary.ofKind (Kind.map_congr fun s hs => h.summary_eq_deduced (hk s hs))

end Sigil.Pool
