import Mathlib.Data.List.Basic
import Mathlib.Tactic.Common
import Sigil.Pool.Canonical

namespace Sigil

def Kind.domain? {α : Type} : Kind α → Option Domain
  | ctx d _ => some d
  | _ => none

theorem Kind.domain?_eq_some {α : Type} {k : Kind α} {d : Domain} :
    k.domain? = some d ↔ ∃ s, k = ctx d s := by
  cases k <;> simp [domain?]

@[simp] theorem Kind.domain?_push {α : Type} (sub : α) (k : Kind α) :
    (k.push sub).domain? = k.domain? := by
  cases k <;> rfl

@[simp] theorem Kind.domain?_map {α β : Type} (f : α → β) (k : Kind α) :
    (k.map f).domain? = k.domain? := by
  cases k <;> rfl

namespace Pool

def isCanonical (p : Pool) (id : PatternId) : Bool := (p.get? id).any (·.canonical)

def matcher? (p : Pool) (id : PatternId) : Option Matcher := (p.get? id).bind (·.matcher)

def domain? (p : Pool) (id : PatternId) : Option Domain := (p.kind? id).bind Kind.domain?

def fresh (p : Pool) : PatternId := ⟨p.nodes.size⟩

variable {p : Pool} {id n : PatternId} {k : Kind PatternId}

theorem contains_eq (p : Pool) (id : PatternId) : p.contains id = (p.kind? id).isSome := by
  rw [contains, kind?, Option.isSome_map]

theorem kind?_isSome_iff : (∃ k, p.kind? id = some k) ↔ p.contains id = true := by
  rw [contains_eq, Option.isSome_iff_exists]

theorem kind?_eq_none (h : p.contains id = false) : p.kind? id = none := by
  rwa [contains_eq, Option.isSome_eq_false_iff, Option.isNone_iff_eq_none] at h

theorem contains_of_get? {node : Node} (h : p.get? id = some node) : p.contains id = true := by
  rw [contains, h, Option.isSome_some]

theorem kind?_of_get? {node : Node} (h : p.get? id = some node) : p.kind? id = some node.kind := by
  rw [kind?, h, Option.map_some]

theorem supers_of_get? {node : Node} (h : p.get? id = some node) : p.supers id = node.supers := by
  rw [supers, h, Option.map_some, Option.getD_some]

theorem domain?_eq_some {d : Domain} :
    p.domain? id = some d ↔ ∃ s, p.kind? id = some (.ctx d s) := by
  rw [domain?, Option.bind_eq_some_iff]
  constructor
  · rintro ⟨k, hk, hd⟩
    obtain ⟨s, rfl⟩ := Kind.domain?_eq_some.1 hd
    exact ⟨s, hk⟩
  · rintro ⟨s, hs⟩
    exact ⟨_, hs, rfl⟩

theorem contains_of_domain? {d : Domain} (h : p.domain? id = some d) : p.contains id = true := by
  obtain ⟨s, hs⟩ := domain?_eq_some.1 h
  exact kind?_isSome_iff.1 ⟨_, hs⟩

theorem domain?_congr {q : Pool} (h : q.kind? = p.kind?) : q.domain? = p.domain? := by
  funext n
  rw [domain?, domain?, h]

theorem index_lt_of_contains (h : p.contains id = true) : id.index < p.nodes.size := by
  by_contra hle
  rw [contains, get?, Array.getElem?_eq_none (Nat.le_of_not_lt hle)] at h
  exact absurd h Bool.false_ne_true

theorem get?_fresh (p : Pool) : p.get? p.fresh = none := by
  rw [get?, fresh, Array.getElem?_eq_none (Nat.le_refl _)]
  rfl

theorem ne_fresh_of_contains (h : p.contains id = true) : id ≠ p.fresh := by
  rintro rfl
  rw [contains, get?_fresh] at h
  exact absurd h Bool.false_ne_true

theorem contains_of_isCanonical (h : p.isCanonical id = true) : p.contains id = true := by
  obtain ⟨node, hnode, -⟩ := (Option.any_eq_true ..).1 h
  exact contains_of_get? hnode

theorem roots_eq_zero (h : p.contains id = false) : p.roots id = 0 := by
  rw [contains, Option.isSome_eq_false_iff, Option.isNone_iff_eq_none] at h
  rw [roots, h]
  rfl

theorem contains_of_roots_pos (h : 0 < p.roots id) : p.contains id = true := by
  by_contra hdead
  rw [roots_eq_zero (Bool.not_eq_true _ ▸ hdead)] at h
  exact Nat.lt_irrefl 0 h

theorem mem_ids : id ∈ p.ids ↔ p.contains id = true := by
  rw [ids, List.mem_filter, and_iff_right_iff_imp]
  intro h
  exact List.mem_map.2 ⟨id.index, List.mem_range.2 (index_lt_of_contains h), rfl⟩

/-! ## Changing one node -/

theorem get?_modify (p : Pool) (id n : PatternId) (f : Node → Node) :
    (p.modify id f).get? n = if n = id then (p.get? n).map f else p.get? n := by
  rw [get?, get?, modify, Array.getElem?_modify]
  by_cases h : n = id
  · rw [if_pos h, if_pos (congrArg PatternId.index h).symm]
    cases p.nodes[n.index]? <;> rfl
  · have hindex : id.index ≠ n.index := fun e => h (congrArg PatternId.mk e).symm
    rw [if_neg h, if_neg hindex]

theorem modify_eq_self {f : Node → Node} (h : ∀ node, p.get? id = some node → f node = node) :
    p.modify id f = p := by
  have hnodes : p.nodes.modify id.index (Option.map f) = p.nodes := by
    apply Array.ext_getElem?
    intro i
    rw [Array.getElem?_modify]
    split
    case isTrue hi =>
      rw [get?, hi] at h
      cases hnode : p.nodes[i]? with
      | none => rfl
      | some slot =>
        cases slot with
        | none => rfl
        | some node => rw [Option.map_some, Option.map_some, h node (by rw [hnode]; rfl)]
    case isFalse => rfl
  rw [modify, hnodes]

/-- A view that does not look at what is changed does not change. -/
theorem view_modify {τ : Type} (view : Option Node → τ) {f : Node → Node}
    (hf : ∀ node, view (some (f node)) = view (some node)) :
    view ((p.modify id f).get? n) = view (p.get? n) := by
  rw [get?_modify]
  split
  · cases p.get? n with
    | none => rfl
    | some node => exact hf node
  · rfl

@[simp] theorem size_modify (p : Pool) (id : PatternId) (f : Node → Node) :
    (p.modify id f).nodes.size = p.nodes.size := Array.size_modify

@[simp] theorem representatives_modify (p : Pool) (id : PatternId) (f : Node → Node) :
    (p.modify id f).representatives = p.representatives := rfl

theorem kind?_modify {f : Node → Node} (hf : ∀ node, (f node).kind = node.kind) :
    (p.modify id f).kind? = p.kind? :=
  funext fun _ => view_modify (Option.map (·.kind)) fun node => congrArg some (hf node)

theorem supers_modify {f : Node → Node} (hf : ∀ node, (f node).supers = node.supers) :
    (p.modify id f).supers = p.supers :=
  funext fun _ => view_modify (fun o : Option Node => (o.map Node.supers).getD []) hf

theorem summary_modify {f : Node → Node} (hf : ∀ node, (f node).summary = node.summary) :
    (p.modify id f).summary = p.summary :=
  funext fun _ => view_modify (fun o : Option Node => (o.map Node.summary).getD .absent) hf

theorem roots_modify {f : Node → Node} (hf : ∀ node, (f node).roots = node.roots) :
    (p.modify id f).roots = p.roots :=
  funext fun _ => view_modify (fun o : Option Node => (o.map Node.roots).getD 0) hf

theorem isCanonical_modify {f : Node → Node} (hf : ∀ node, (f node).canonical = node.canonical) :
    (p.modify id f).isCanonical = p.isCanonical :=
  funext fun _ => view_modify (Option.any (·.canonical)) hf

theorem lead_modify {f : Node → Node} (hf : ∀ node, (f node).lead = node.lead) :
    (p.modify id f).lead = p.lead :=
  funext fun _ => view_modify (fun o : Option Node => (o.map Node.lead).getD 0) hf

/-- No literal begins inside a byte of its storage. -/
def Aligned (p : Pool) : Prop := ∀ id, p.lead id = 0

theorem Aligned.congr {q : Pool} (h : p.Aligned) (hlead : q.lead = p.lead) : q.Aligned := fun id =>
  (congrFun hlead id).trans (h id)

theorem mem_representatives_forget (p : Pool) (id : PatternId) (canonical : Bool)
    (entry : Shape × PatternId) :
    entry ∈ (if canonical then p.forget id else p).representatives ↔
      entry ∈ p.representatives ∧ (canonical = true → entry.2 ≠ id) := by
  split
  case isTrue h =>
    rw [forget]
    dsimp only
    rw [List.mem_filter, decide_eq_true_iff, h]
    exact and_congr_right fun _ => ⟨fun hne _ => hne, fun hne => hne rfl⟩
  case isFalse h => simp [h]

theorem representatives_sublist_forget (p : Pool) (id : PatternId) (canonical : Bool) :
    (if canonical then p.forget id else p).representatives.Sublist p.representatives := by
  split
  · exact List.filter_sublist
  · exact List.Sublist.refl _

def mapKind (p : Pool) (id : PatternId) (f : Kind PatternId → Kind PatternId) : Pool :=
  p.modify id fun node => { node with kind := f node.kind }

section MapKind

variable (p : Pool) (id : PatternId) (f : Kind PatternId → Kind PatternId)

theorem kind?_mapKind (n : PatternId) :
    (p.mapKind id f).kind? n = if n = id then (p.kind? n).map f else p.kind? n := by
  rw [kind?, mapKind, get?_modify]
  split
  · rw [kind?]
    cases p.get? n <;> rfl
  · rfl

@[simp] theorem contains_mapKind (n : PatternId) : (p.mapKind id f).contains n = p.contains n := by
  rw [contains_eq, contains_eq, kind?_mapKind]
  split
  · rw [Option.isSome_map]
  · rfl

@[simp] theorem supers_mapKind : (p.mapKind id f).supers = p.supers := supers_modify fun _ => rfl

@[simp] theorem summary_mapKind : (p.mapKind id f).summary = p.summary :=
  summary_modify fun _ => rfl

@[simp] theorem roots_mapKind : (p.mapKind id f).roots = p.roots := roots_modify fun _ => rfl

@[simp] theorem lead_mapKind : (p.mapKind id f).lead = p.lead := lead_modify fun _ => rfl

@[simp] theorem isCanonical_mapKind : (p.mapKind id f).isCanonical = p.isCanonical :=
  isCanonical_modify fun _ => rfl

end MapKind

/-! ## Back edges -/

@[simp] theorem kind?_link (p : Pool) (sub super : PatternId) :
    (p.link sub super).kind? = p.kind? :=
  kind?_modify fun _ => rfl

@[simp] theorem kind?_unlink (p : Pool) (sub super : PatternId) :
    (p.unlink sub super).kind? = p.kind? :=
  kind?_modify fun _ => rfl

@[simp] theorem summary_link (p : Pool) (sub super : PatternId) :
    (p.link sub super).summary = p.summary :=
  summary_modify fun _ => rfl

@[simp] theorem summary_unlink (p : Pool) (sub super : PatternId) :
    (p.unlink sub super).summary = p.summary := summary_modify fun _ => rfl

@[simp] theorem lead_link (p : Pool) (sub super : PatternId) : (p.link sub super).lead = p.lead :=
  lead_modify fun _ => rfl

@[simp] theorem lead_unlink (p : Pool) (sub super : PatternId) :
    (p.unlink sub super).lead = p.lead :=
  lead_modify fun _ => rfl

@[simp] theorem roots_link (p : Pool) (sub super : PatternId) :
    (p.link sub super).roots = p.roots :=
  roots_modify fun _ => rfl

@[simp] theorem roots_unlink (p : Pool) (sub super : PatternId) :
    (p.unlink sub super).roots = p.roots :=
  roots_modify fun _ => rfl

@[simp] theorem isCanonical_link (p : Pool) (sub super : PatternId) :
    (p.link sub super).isCanonical = p.isCanonical := isCanonical_modify fun _ => rfl

@[simp] theorem isCanonical_unlink (p : Pool) (sub super : PatternId) :
    (p.unlink sub super).isCanonical = p.isCanonical := isCanonical_modify fun _ => rfl

@[simp] theorem contains_link (p : Pool) (sub super : PatternId) :
    (p.link sub super).contains n = p.contains n := by
  rw [contains_eq, contains_eq, kind?_link]

theorem supers_link (h : p.contains id = true) (super : PatternId) :
    (p.link id super).supers n = if n = id then (p.supers n).insert super else p.supers n := by
  rw [supers, link, get?_modify]
  split
  case isTrue heq =>
    obtain ⟨node, hnode⟩ := Option.isSome_iff_exists.1 h
    rw [supers, heq, hnode]
    rfl
  case isFalse => rfl

theorem supers_unlink (p : Pool) (id super : PatternId) :
    (p.unlink id super).supers n = if n = id then (p.supers n).erase super else p.supers n := by
  rw [supers, unlink, get?_modify]
  split
  · rw [supers]
    cases p.get? n <;> rfl
  · rfl

/-- What stays when one node is changed stays when a few are. -/
theorem foldl_modify_eq {τ : Type} (view : Pool → τ) {f : Node → Node}
    (hview : ∀ (p : Pool) id, view (p.modify id f) = view p) (ids : List PatternId) (p : Pool) :
    view (ids.foldl (fun q id => q.modify id f) p) = view p := by
  induction ids generalizing p with
  | nil => rfl
  | cons id ids ih => exact (ih (p.modify id f)).trans (hview p id)

theorem view_foldl_modify {τ : Type} (view : Option Node → τ) {f : Node → Node}
    (hf : ∀ node, view (some (f node)) = view (some node)) (ids : List PatternId) (p : Pool) :
    view ((ids.foldl (fun q id => q.modify id f) p).get? n) = view (p.get? n) :=
  foldl_modify_eq (fun q => view (q.get? n)) (fun _ _ => view_modify view hf) ids p

theorem fields_foldl_modify (f : Node → Node) (ids : List PatternId) (p : Pool) :
    let q := ids.foldl (fun q id => q.modify id f) p
    q.nodes.size = p.nodes.size ∧ q.live = p.live ∧ q.representatives = p.representatives :=
  ⟨foldl_modify_eq (·.nodes.size) (fun _ _ => size_modify ..) ids p,
    foldl_modify_eq (·.live) (fun _ _ => rfl) ids p,
    foldl_modify_eq (·.representatives) (fun _ _ => rfl) ids p⟩

theorem supers_foldl_link (super : PatternId) {subs : List PatternId} {p : Pool}
    (h : ∀ s ∈ subs, p.contains s = true) (n : PatternId) :
    (subs.foldl (fun q s => q.link s super) p).supers n =
      if n ∈ subs then (p.supers n).insert super else p.supers n := by
  induction subs generalizing p with
  | nil => rfl
  | cons s subs ih =>
    rw [List.foldl_cons, ih fun t ht => (contains_link ..).trans (h t (List.mem_cons_of_mem s ht)),
      supers_link (h s List.mem_cons_self)]
    by_cases hs : n = s
    · have hinsert : ((p.supers n).insert super).insert super = (p.supers n).insert super :=
        List.insert_of_mem List.mem_insert_self
      rw [if_pos hs, hinsert, ite_self, if_pos (List.mem_cons.2 (Or.inl hs))]
    · simp [hs]

theorem supers_foldl_unlink (super : PatternId) (subs : List PatternId) {p : Pool} {n : PatternId}
    (h : (p.supers n).Nodup) :
    (subs.foldl (fun q s => q.unlink s super) p).supers n =
      if n ∈ subs then (p.supers n).erase super else p.supers n := by
  induction subs generalizing p with
  | nil => rfl
  | cons s subs ih =>
    have hunlink := supers_unlink (n := n) p s super
    by_cases hs : n = s
    · rw [if_pos hs] at hunlink
      rw [List.foldl_cons, ih (hunlink ▸ h.erase super), hunlink,
        if_pos (List.mem_cons.2 (Or.inl hs)), List.erase_of_not_mem h.not_mem_erase, ite_self]
    · rw [if_neg hs] at hunlink
      rw [List.foldl_cons, ih (hunlink ▸ h), hunlink]
      simp [hs]

/-! ## A new node -/

section Add

variable (p : Pool) (k : Kind PatternId) {lead : Fin 8}

theorem get?_push (node : Node) (live : Nat) (n : PatternId) :
    Pool.get? { p with nodes := p.nodes.push (some node), live := live } n =
      if n = p.fresh then some node else p.get? n := by
  rw [get?, Array.getElem?_push]
  by_cases h : n = p.fresh
  · have hindex : n.index = p.nodes.size := congrArg PatternId.index h
    rw [if_pos h, if_pos hindex]
    rfl
  · have hindex : n.index ≠ p.nodes.size := fun e => h (congrArg PatternId.mk e)
    rw [if_neg h, if_neg hindex, get?]

/-- A view that does not look at back edges sees the new node and nothing else change. -/
theorem view_add {τ : Type} (view : Option Node → τ)
    (hview : ∀ (node : Node) supers, view (some { node with supers := supers }) = view (some node))
    (n : PatternId) :
    view ((p.add k lead).2.get? n) =
      if n = p.fresh then view (some { kind := k, lead := lead, summary := p.summarize k }) else
        view (p.get? n) := by
  apply (view_foldl_modify view (fun node => hview node _) k.subs _).trans
  rw [get?_push, apply_ite view]

theorem kind?_add (n : PatternId) :
    (p.add k lead).2.kind? n = if n = p.fresh then some k else p.kind? n :=
  view_add p k (Option.map (·.kind)) (fun _ _ => rfl) n

theorem summary_add (n : PatternId) :
    (p.add k lead).2.summary n = if n = p.fresh then p.summarize k else p.summary n :=
  view_add p k (fun o => (o.map Node.summary).getD .absent) (fun _ _ => rfl) n

theorem isCanonical_add (n : PatternId) : (p.add k lead).2.isCanonical n = p.isCanonical n := by
  apply (view_add p k (Option.any (·.canonical)) (fun _ _ => rfl) n).trans
  split
  case isTrue h =>
    rw [isCanonical, h, get?_fresh]
    rfl
  case isFalse => rfl

theorem roots_add (n : PatternId) : (p.add k lead).2.roots n = p.roots n := by
  apply (view_add p k (fun o => (o.map Node.roots).getD 0) (fun _ _ => rfl) n).trans
  split
  case isTrue h =>
    rw [roots, h, get?_fresh]
    rfl
  case isFalse => rfl

theorem matcher?_add (n : PatternId) : (p.add k lead).2.matcher? n = p.matcher? n := by
  apply (view_add p k (fun o => o.bind (·.matcher)) (fun _ _ => rfl) n).trans
  split
  case isTrue h =>
    rw [matcher?, h, get?_fresh]
    rfl
  case isFalse => rfl

theorem lead_add (n : PatternId) :
    (p.add k lead).2.lead n = if n = p.fresh then lead else p.lead n :=
  view_add p k (fun o => (o.map Node.lead).getD 0) (fun _ _ => rfl) n

theorem supers_add {k : Kind PatternId} (h : ∀ s ∈ k.subs, p.contains s = true) (n : PatternId) :
    (p.add k lead).2.supers n = if n ∈ k.subs then (p.supers n).insert p.fresh else p.supers n := by
  rw [add, supers_foldl_link]
  · have hgrown : Pool.supers { p with
        nodes := p.nodes.push (some { kind := k, lead := lead, summary := p.summarize k })
        live := p.live + 1 } n = p.supers n := by
      rw [supers, get?_push]
      split
      case isTrue hn =>
        rw [supers, hn, get?_fresh]
        rfl
      case isFalse => rfl
    rw [hgrown]
    rfl
  · intro s hs
    rw [contains, get?_push, if_neg (ne_fresh_of_contains (h s hs))]
    exact h s hs

theorem fields_add :
    (p.add k lead).2.nodes.size = p.nodes.size + 1 ∧ (p.add k lead).2.live = p.live + 1 ∧
      (p.add k lead).2.representatives = p.representatives := by
  obtain ⟨hsize, hlive, hreps⟩ :=
    fields_foldl_modify (fun n => { n with supers := n.supers.insert p.fresh }) k.subs
      { p with
        nodes := p.nodes.push (some { kind := k, lead := lead, summary := p.summarize k })
        live := p.live + 1 }
  exact ⟨hsize.trans (Array.size_push _), hlive, hreps⟩

theorem sameDigest_add : (p.add k lead).2.sameDigest = p.sameDigest :=
  foldl_modify_eq (·.sameDigest) (fun _ _ => rfl) k.subs _

end Add

end Pool

end Sigil
