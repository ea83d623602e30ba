import Sigil.Proofs.Pool.Lifetime

namespace Sigil

structure Node.Alike (m n : Node) : Prop where
  supers : m.supers.Perm n.supers
  rest : { m with supers := n.supers } = n

namespace Pool

variable {p q : Pool} {id n : PatternId}

structure Alike (p q : Pool) : Prop where
  node : ∀ id, Option.Rel Node.Alike (p.get? id) (q.get? id)
  size : p.nodes.size = q.nodes.size
  live : p.live = q.live
  representatives : p.representatives = q.representatives
  growthBits : p.growthBits = q.growthBits
  sameDigest : p.sameDigest = q.sameDigest

/-- A pool is no more than its nodes and its counters. -/
theorem eq_of_get? (hget : ∀ id, p.get? id = q.get? id) (hsize : p.nodes.size = q.nodes.size)
    (hlive : p.live = q.live) (hreps : p.representatives = q.representatives)
    (hgrowth : p.growthBits = q.growthBits) (hdigest : p.sameDigest = q.sameDigest) : p = q := by
  have hnodes : p.nodes = q.nodes := by
    apply Array.ext hsize
    intro i hi hj
    have hsame := hget ⟨i⟩
    rw [Pool.get?, Pool.get?, Array.getElem?_eq_getElem hi, Array.getElem?_eq_getElem hj] at hsame
    exact hsame
  cases p
  cases q
  simp only at hnodes
  rw [mk.injEq]
  exact ⟨hnodes, hlive, hreps, hgrowth, hdigest⟩

/-- What is said about a pattern, its matcher, the number of its holders and how it is stored. -/
abbrev Label := Description × Option Matcher × Nat × Fin 8

def label (p : Pool) (id : PatternId) : Option Label :=
  (p.get? id).map fun node => (node.description, node.matcher, node.roots, node.lead)

theorem label_modify {f : Node → Node}
    (hf : ∀ node, (f node).description = node.description ∧ (f node).matcher = node.matcher ∧
      (f node).roots = node.roots ∧ (f node).lead = node.lead) :
    (p.modify id f).label = p.label := by
  funext n
  refine view_modify (Option.map fun node => (node.description, node.matcher, node.roots,
    node.lead))
    fun node => ?_
  obtain ⟨hdescription, hmatcher, hroots, hlead⟩ := hf node
  rw [Option.map_some, Option.map_some, hdescription, hmatcher, hroots, hlead]

theorem label_link (p : Pool) (sub super : PatternId) : (p.link sub super).label = p.label :=
  label_modify fun _ => ⟨rfl, rfl, rfl, rfl⟩

theorem label_unlink (p : Pool) (sub super : PatternId) : (p.unlink sub super).label = p.label :=
  label_modify fun _ => ⟨rfl, rfl, rfl, rfl⟩

theorem label_mapKind (p : Pool) (id : PatternId) (f : Kind PatternId → Kind PatternId) :
    (p.mapKind id f).label = p.label := label_modify fun _ => ⟨rfl, rfl, rfl, rfl⟩

namespace Alike

/-- A node is no more than its views. -/
theorem of_views (hkind : p.kind? = q.kind?) (hlabel : p.label = q.label)
    (hsummary : p.summary = q.summary) (hcanonical : p.isCanonical = q.isCanonical)
    (hsupers : ∀ n, (p.supers n).Perm (q.supers n)) (hsize : p.nodes.size = q.nodes.size)
    (hlive : p.live = q.live) (hreps : p.representatives = q.representatives)
    (hgrowth : p.growthBits = q.growthBits) (hdigest : p.sameDigest = q.sameDigest) :
    p.Alike q where
  node id := by
    have hkind := congrFun hkind id
    have hlabel := congrFun hlabel id
    have hsummary := congrFun hsummary id
    have hcanonical := congrFun hcanonical id
    have hsupers := hsupers id
    unfold Pool.kind? Pool.label Pool.summary Pool.isCanonical Pool.supers at *
    cases hp : p.get? id with
    | none =>
      rw [hp, Option.map_none, eq_comm, Option.map_eq_none_iff] at hkind
      rw [hkind]
      exact .none
    | some m =>
      rw [hp, Option.map_some, eq_comm, Option.map_eq_some_iff] at hkind
      obtain ⟨node, hq, hkind⟩ := hkind
      rw [hp, hq] at hlabel hsummary hcanonical hsupers
      rw [hq]
      refine .some ⟨hsupers, ?_⟩
      obtain ⟨kind, lead, description, matcher, supers, roots, summary, canonical⟩ := m
      obtain ⟨kind', lead', description', matcher', supers', roots', summary', canonical'⟩ := node
      simp only [Option.map_some, Option.some.injEq, Prod.mk.injEq, Option.getD_some,
        Option.any_some] at *
      obtain ⟨hdescription, hmatcher, hroots, hlead⟩ := hlabel
      rw [hkind, hdescription, hmatcher, hroots, hlead, hsummary, hcanonical]
  size := hsize
  live := hlive
  representatives := hreps
  growthBits := hgrowth
  sameDigest := hdigest

theorem get? (h : p.Alike q) (id : PatternId) :
    p.get? id = none ∧ q.get? id = none ∨
      ∃ m n, p.get? id = some m ∧ q.get? id = some n ∧ Node.Alike m n := by
  have hrel := h.node id
  generalize p.get? id = a at hrel
  generalize q.get? id = b at hrel
  cases hrel with
  | none => exact .inl ⟨rfl, rfl⟩
  | some halike => exact .inr ⟨_, _, rfl, rfl, halike⟩

/-- Pools that are alike and agree on back edges are the same. -/
theorem eq (h : p.Alike q) (hsupers : p.supers = q.supers) : p = q := by
  refine eq_of_get? (fun id => ?_) h.size h.live h.representatives h.growthBits h.sameDigest
  rcases h.get? id with ⟨hm, hn⟩ | ⟨m, n, hm, hn, halike⟩
  · rw [hm, hn]
  · have hsame := congrFun hsupers id
    rw [Pool.supers, Pool.supers, hm, hn, Option.map_some, Option.getD_some, Option.map_some,
      Option.getD_some] at hsame
    rw [hm, hn, ← halike.rest, ← hsame]

/-! ## Destroying -/

theorem foldl (h : p.Alike q) {f : Pool → PatternId → Pool}
    (hf : ∀ p q, p.Alike q → ∀ id, (f p id).Alike (f q id)) (ids : List PatternId) :
    (ids.foldl f p).Alike (ids.foldl f q) := by
  induction ids generalizing p q with
  | nil => exact h
  | cons id ids ih => exact ih (hf p q h id)

theorem modify (h : p.Alike q) {f : Node → Node}
    (hf : ∀ m n, Node.Alike m n → Node.Alike (f m) (f n)) (id : PatternId) :
    (p.modify id f).Alike (q.modify id f) where
  node n := by
    rw [get?_modify, get?_modify]
    split
    case isTrue =>
      rcases h.get? n with ⟨hm, hn⟩ | ⟨m, n', hm, hn, halike⟩
      · rw [hm, hn]
        exact .none
      · rw [hm, hn]
        exact .some (hf m n' halike)
    case isFalse => exact h.node n
  size := by rw [size_modify, size_modify, h.size]
  live := h.live
  representatives := h.representatives
  growthBits := h.growthBits
  sameDigest := h.sameDigest

theorem unlink (h : p.Alike q) (sub super : PatternId) :
    (p.unlink sub super).Alike (q.unlink sub super) :=
  h.modify (fun _ _ halike => ⟨halike.supers.erase super, by rw [← halike.rest]⟩) sub

theorem drop (h : p.Alike q) {m n : Node} (hm : p.get? id = some m) (hn : q.get? id = some n)
    (halike : Node.Alike m n) : (p.drop id m).Alike (q.drop id n) := by
  have hkind : n.kind = m.kind := by rw [← halike.rest]
  have hcanonical : n.canonical = m.canonical := by rw [← halike.rest]
  have hdropped : (p.dropped id m).Alike (q.dropped id n) :=
    { node := by
        intro n'
        rw [get?_dropped (contains_of_get? hm), get?_dropped (contains_of_get? hn)]
        split
        · exact .none
        · exact h.node n'
      size := by
        rw [dropped, dropped, hcanonical]
        split <;> simp [forget, h.size]
      live := by
        rw [dropped, dropped, hcanonical]
        split <;> simp [forget, h.live]
      representatives := by
        rw [dropped, dropped, hcanonical]
        split <;> simp [forget, h.representatives]
      growthBits := by
        rw [dropped, dropped, hcanonical]
        split <;> simp [forget, h.growthBits]
      sameDigest := by
        rw [dropped, dropped, hcanonical]
        split <;> simp [forget, h.sameDigest] }
  rw [drop_eq, drop_eq, hkind]
  exact hdropped.foldl (fun _ _ h sub => h.unlink sub id) m.kind.subs

theorem isOrphan (h : p.Alike q) (id : PatternId) : p.isOrphan id = q.isOrphan id := by
  unfold Pool.isOrphan
  rcases h.get? id with ⟨hm, hn⟩ | ⟨m, n, hm, hn, halike⟩
  · rw [hm, hn]
  · have hroots : n.roots = m.roots := by rw [← halike.rest]
    rw [hm, hn, Option.any_some, Option.any_some, hroots, Bool.eq_iff_iff]
    simp only [Bool.and_eq_true, List.isEmpty_iff, and_congr_right_iff]
    intro _
    exact ⟨fun hnil => List.nil_perm.1 (hnil ▸ halike.supers), fun hnil =>
      List.perm_nil.1 (hnil ▸ halike.supers)⟩

theorem destroyDown (fuel : Nat) : ∀ p q : Pool, p.Alike q → ∀ id,
    (Pool.destroyDown fuel p id).Alike (Pool.destroyDown fuel q id) := by
  induction fuel with
  | zero => exact fun _ _ h _ => h
  | succ fuel ih =>
    intro p q h id
    rw [Pool.destroyDown, Pool.destroyDown]
    rcases h.get? id with ⟨hm, hn⟩ | ⟨m, n, hm, hn, halike⟩
    · rw [hm, hn]
      exact h
    · have hkind : n.kind = m.kind := by rw [← halike.rest]
      rw [hm, hn]
      dsimp only
      rw [hkind]
      refine (h.drop hm hn halike).foldl (fun p q h sub => ?_) m.kind.subs
      rw [h.isOrphan]
      split
      · exact ih p q h sub
      · exact h

theorem destroy (h : p.Alike q) (id : PatternId) : (p.destroy id).Alike (q.destroy id) := by
  rw [Pool.destroy, Pool.destroy, h.size]
  exact destroyDown _ p q h id

end Alike

end Pool

end Sigil
