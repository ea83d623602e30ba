import Sigil.Proofs.Pool.Growth
import Sigil.Proofs.Meaning

namespace Sigil.Pool

open Relation (ReflTransGen TransGen)

variable {p q r : Pool} {id m n : PatternId} {k : Kind PatternId}

/-- The meaning of a live pattern. -/
def meaning (p : Pool) (id : PatternId) : Meaning := (p.summary id).shape.meaning

theorem WellFormed.meaning_eq (h : p.WellFormed) (hk : p.kind? id = some k) :
    p.meaning id = (k.map p.meaning).meaning := by
  rw [meaning, h.settled id k hk]
  apply (Tree.meaning_node () _).trans
  rw [Kind.map_map, Kind.map_map]
  rfl

theorem Extends.meaning (h : p.Extends q) (hid : p.contains id = true) :
    q.meaning id = p.meaning id := by
  rw [Pool.meaning, h.summary id hid, Pool.meaning]

theorem Extends.map_meaning (h : p.Extends q) (hsubs : ∀ s ∈ k.subs, p.contains s = true) :
    k.map q.meaning = k.map p.meaning := Kind.map_congr fun s hs => h.meaning (hsubs s hs)

/-- `q` is a well-formed pool with all patterns of `p`, of which only `appointed` ones became
canonical. All new patterns are canonical. -/
structure Refines (appointed : PatternId → Prop) (p q : Pool) : Prop extends Extends p q where
  wellFormed : q.WellFormed
  newly : ∀ n, p.contains n = true → q.isCanonical n = true → p.isCanonical n = true ∨ appointed n
  grown : ∀ n, q.contains n = true → p.contains n = true ∨ q.isCanonical n = true

namespace Refines

variable {appointed more : PatternId → Prop}

theorem refl (h : p.WellFormed) : Refines appointed p p where
  toExtends := Extends.refl p
  wellFormed := h
  newly _ _ hn := Or.inl hn
  grown _ hn := Or.inl hn

theorem trans (h : Refines appointed p q) (h' : Refines appointed q r) : Refines appointed p r where
  toExtends := h.toExtends.trans h'.toExtends
  wellFormed := h'.wellFormed
  newly n hn hr := by
    rcases h'.newly n (h.contains hn) hr with hq | happointed
    · exact h.newly n hn hq
    · exact Or.inr happointed
  grown n hr := by
    rcases h'.grown n hr with hq | hcanonical
    · exact (h.grown n hq).imp_right (h'.isCanonical n)
    · exact Or.inr hcanonical

theorem mono (h : Refines appointed p q) (hsub : ∀ n, appointed n → more n) : Refines more p q :=
  { h with newly := fun n hn hq => (h.newly n hn hq).imp_right (hsub n) }

end Refines

/-! ## Interning -/

theorem representative?_eq_some (h : p.WellFormed) (hid : p.representative? k = some id) :
    p.kind? id = some k ∧ p.isCanonical id = true := by
  obtain ⟨entry, hentry, rfl⟩ := Option.map_eq_some_iff.1 hid
  have hfound := List.find?_some hentry
  have hmem := List.mem_of_find?_eq_some hentry
  rw [Bool.and_eq_true, beq_iff_eq] at hfound
  exact ⟨hfound.2, ((h.registered entry.1 entry.2).1 hmem).1⟩

/-- A shape has one representative. -/
theorem WellFormed.eq_of_shape_eq (h : p.WellFormed) (hm : p.isCanonical m = true)
    (hn : p.isCanonical n = true) (hshape : (p.summary m).shape = (p.summary n).shape) : m = n := by
  have hentry : ((p.summary m).shape, m) ∈ p.representatives := (h.registered _ m).2 ⟨hm, rfl⟩
  have hentry' : ((p.summary n).shape, n) ∈ p.representatives := (h.registered _ n).2 ⟨hn, rfl⟩
  exact congrArg Prod.snd (List.inj_on_of_nodup_map h.distinct hentry hentry' hshape)

/-- Over canonical patterns, layers of one shape are the same. -/
theorem WellFormed.eq_of_summarize_shape_eq (h : p.WellFormed) {k' : Kind PatternId}
    (hk : ∀ s ∈ k.subs, p.isCanonical s = true) (hk' : ∀ s ∈ k'.subs, p.isCanonical s = true)
    (hshape : (p.summarize k).shape = (p.summarize k').shape) : k = k' := by
  have hmap : k.map (fun s => (p.summary s).shape) = k'.map (fun s => (p.summary s).shape) := by
    have hlayer := (Tree.node.inj hshape).2
    rwa [Kind.map_map, Kind.map_map] at hlayer
  exact Kind.eq_of_map_eq_on (fun s hs t ht => h.eq_of_shape_eq (hk s hs) (hk' t ht)) hmap

/-- Where no representative of a layer is found, its shape has none. -/
theorem WellFormed.shape_notMem_of_representative? (h : p.WellFormed)
    (hsubs : ∀ s ∈ k.subs, p.isCanonical s = true) (hnone : p.representative? k = none) :
    (p.summarize k).shape ∉ p.representatives.map (·.1) := by
  intro hmem
  obtain ⟨⟨shape, n⟩, hentry, rfl⟩ := List.mem_map.1 hmem
  obtain ⟨hn, hshape⟩ := (h.registered _ n).1 hentry
  obtain ⟨k', hk'⟩ := kind?_isSome_iff.2 (contains_of_isCanonical hn)
  have hsubs' : ∀ s ∈ k'.subs, p.isCanonical s = true :=
    fun s hs => h.canonical_sub n s ⟨k', hk', hs⟩ hn
  -- the entry is for this very layer, so it would have been found
  rw [h.settled n k' hk'] at hshape
  have hsame : k = k' := h.eq_of_summarize_shape_eq hsubs hsubs' hshape
  rw [representative?, Option.map_eq_none_iff, List.find?_eq_none] at hnone
  apply hnone _ hentry
  rw [hk', hsame, Bool.and_eq_true, h.discerning.sameDigest_iff, beq_iff_eq]
  exact ⟨hsame ▸ rfl, rfl⟩

theorem extends_modify {f : Node → Node} (hf : KeepsPlace f)
    (hroots : ∀ node, (f node).roots = node.roots)
    (hmatcher : (∀ n, p.matcher? n = none) → ∀ n, (p.modify id f).matcher? n = none) :
    p.Extends (p.modify id f) where
  ages := Ages.of_contains (size_modify ..).ge fun n hn => by
    rwa [contains_congr (kind?_modify hf.kind)] at hn
  kind? n _ := by rw [kind?_modify hf.kind]
  summary n _ := by rw [summary_modify hf.summary]
  isCanonical n hn := by rwa [isCanonical_modify hf.canonical]
  roots n := by rw [roots_modify hroots]
  matcher? := hmatcher
  lead n _ := congrFun (lead_modify hf.lead) n
  aligned hp := hp.congr (lead_modify hf.lead)

theorem refines_modify {appointed : PatternId → Prop} (h : p.WellFormed) {f : Node → Node}
    (hf : KeepsPlace f) (hroots : ∀ node, (f node).roots = node.roots)
    (hmatcher : (∀ n, p.matcher? n = none) → ∀ n, (p.modify id f).matcher? n = none) :
    Refines appointed p (p.modify id f) where
  toExtends := extends_modify hf hroots hmatcher
  wellFormed := h.modify hf id
  newly n _ hn := by
    rw [isCanonical_modify hf.canonical] at hn
    exact Or.inl hn
  grown n hn := by
    rw [contains_congr (kind?_modify hf.kind)] at hn
    exact Or.inl hn

theorem matcher?_modify_eq_none {f : Node → Node}
    (hf : ∀ node, node.matcher = none → (f node).matcher = none) (hp : ∀ n, p.matcher? n = none)
    (n : PatternId) : (p.modify id f).matcher? n = none := by
  rw [matcher?, get?_modify]
  split
  · cases hnode : p.get? n with
    | none => rfl
    | some node =>
      have hnone := hp n
      rw [matcher?, hnode] at hnone
      exact hf node hnone
  · exact hp n

theorem refines_appoint (h : p.WellFormed) (hk : p.kind? id = some k)
    (hsubs : ∀ s ∈ k.subs, p.isCanonical s = true)
    (hnew : (p.summarize k).shape ∉ p.representatives.map (·.1)) :
    Refines (· = id) p (p.appoint id) where
  toExtends := extends_appoint p id
  wellFormed :=
    h.appoint (kind?_isSome_iff.1 ⟨k, hk⟩) (fun s hs => hsubs s ((embeds_iff hk).1 hs))
      (by rwa [h.settled id k hk])
  newly n _ hn := by
    rw [isCanonical_appoint] at hn
    split at hn
    case isTrue heq => exact Or.inr heq
    case isFalse => exact Or.inl hn
  grown n hn := by
    rw [contains_congr (kind?_appoint p id)] at hn
    exact Or.inl hn

theorem isCanonical_appoint_self (hk : p.kind? id = some k) :
    (p.appoint id).isCanonical id = true := by
  rw [isCanonical_appoint, if_pos rfl]
  exact kind?_isSome_iff.1 ⟨k, hk⟩

/-- A new node that becomes the representative of its shape. -/
theorem WellFormed.refines_representative (h : p.WellFormed) (hk : k.Valid)
    (hsubs : ∀ s ∈ k.subs, p.isCanonical s = true)
    (hnew : (p.summarize k).shape ∉ p.representatives.map (·.1)) (describe : Node → Description)
    {matcher : Option Matcher} (hmatcher : (∀ n, p.matcher? n = none) → matcher = none)
    {lead : Fin 8} (hlead : p.Aligned → lead = 0) :
    let described := (p.add k lead).2.modify p.fresh fun n =>
      { n with description := describe n, matcher := matcher }
    let q := described.appoint p.fresh
    Refines (fun _ => False) p q ∧ q.kind? p.fresh = some k ∧ q.isCanonical p.fresh = true := by
  intro described q
  have hextends : p.Extends (p.add k lead).2 := extends_add p k hlead
  have hplace : KeepsPlace fun n => { n with description := describe n, matcher := matcher } :=
    ⟨fun _ => rfl, fun _ => rfl, fun _ => rfl, fun _ => rfl, fun _ => rfl⟩
  have hchange : Refines (· = p.fresh) (p.add k lead).2 described := by
    apply refines_modify (h.add hk fun s hs => contains_of_isCanonical (hsubs s hs)) hplace fun _ =>
      rfl
    intro hgrown
    exact matcher?_modify_eq_none
      (fun _ _ => hmatcher fun n => (matcher?_add p k n).symm.trans (hgrown n)) hgrown
  have hkind : described.kind? p.fresh = some k := by
    rw [kind?_modify hplace.kind, kind?_add, if_pos rfl]
  have hboth := hextends.trans hchange.toExtends
  have hnew' : (described.summarize k).shape ∉ described.representatives.map (·.1) := by
    rwa [hboth.summarize fun s hs => contains_of_isCanonical (hsubs s hs), representatives_modify,
      (fields_add p k).2.2]
  have hrest := hchange.trans
    (refines_appoint hchange.wellFormed hkind (fun s hs => hboth.isCanonical s (hsubs s hs)) hnew')
  have hcanonical : q.isCanonical p.fresh = true := isCanonical_appoint_self hkind
  -- only the new node became canonical, and it is none of the older ones
  refine ⟨⟨hextends.trans hrest.toExtends, hrest.wellFormed, ?_, ?_⟩, ?_, hcanonical⟩
  · intro n hn hq
    rcases hrest.newly n (hextends.contains hn) hq with hold | hfresh
    · rw [isCanonical_add] at hold
      exact Or.inl hold
    · exact absurd hfresh (ne_fresh_of_contains hn)
  · intro n hn
    rcases hrest.grown n hn with hold | hq
    · rcases (contains_add n).1 hold with rfl | hp
      · exact Or.inr hcanonical
      · exact Or.inl hp
    · exact Or.inr hq
  · rw [kind?_appoint, hkind]

/-- The matcher of the origin is that of a pattern of the pool. -/
theorem matcher_eq_none_of_bare (hp : ∀ n, p.matcher? n = none) (origin : Option PatternId) :
    (origin >>= p.get?) >>= (·.matcher) = none := by
  cases origin with
  | none => rfl
  | some id => exact hp id

theorem extends_intern (p : Pool) (k : Kind PatternId) {lead : Fin 8} (hlead : p.Aligned → lead = 0)
    (origin : Option PatternId) : p.Extends (p.intern k lead origin).2 := by
  have hmatcher : (∀ n, p.matcher? n = none) → ((origin >>= p.get?) >>= (·.matcher)) = none :=
    fun hp => matcher_eq_none_of_bare hp origin
  unfold Pool.intern
  dsimp only
  generalize origin >>= p.get? = source at hmatcher ⊢
  split
  case h_1 id _ =>
    refine extends_modify ⟨fun _ => rfl, fun _ => rfl, fun _ => rfl, fun _ => rfl, fun _ => rfl⟩
      (fun _ => rfl)
      fun hp => ?_
    refine matcher?_modify_eq_none (fun node hnode => ?_) hp
    dsimp only
    rw [hnode, hmatcher hp]
    rfl
  case h_2 =>
    split
    case h_1 => exact extends_appoint p _
    case h_2 =>
      refine Extends.trans ?_ (extends_appoint _ _)
      refine (extends_add p k hlead).trans ?_
      refine extends_modify ⟨fun _ => rfl, fun _ => rfl, fun _ => rfl, fun _ => rfl, fun _ => rfl⟩
        (fun _ => rfl)
        fun hgrown => ?_
      exact matcher?_modify_eq_none (fun _ _ => hmatcher fun n =>
        (matcher?_add p k n).symm.trans (hgrown n)) hgrown

/-- Interning answers with a canonical pattern of the given kind. Of the older patterns only the
origin may become canonical, and only by being the answer. -/
theorem WellFormed.intern (h : p.WellFormed) (hk : k.Valid)
    (hsubs : ∀ s ∈ k.subs, p.isCanonical s = true) {lead : Fin 8} (hlead : p.Aligned → lead = 0)
    (origin : Option PatternId) :
    let c := (p.intern k lead origin).1
    let q := (p.intern k lead origin).2
    Refines (fun n => origin = some n ∧ n = c) p q ∧ q.kind? c = some k ∧
      q.isCanonical c = true := by
  have hmatcher : (∀ n, p.matcher? n = none) → ((origin >>= p.get?) >>= (·.matcher)) = none :=
    fun hp => matcher_eq_none_of_bare hp origin
  unfold Pool.intern
  dsimp only
  generalize hsource : origin >>= p.get? = source at hmatcher ⊢
  split
  case h_1 id hid =>
    -- the representative of the shape is found, and may take the matcher over
    obtain ⟨hkind, hcanonical⟩ := representative?_eq_some h hid
    have hplace : KeepsPlace fun n =>
        { n with matcher := n.matcher <|> (source >>= (·.matcher)) } :=
      ⟨fun _ => rfl, fun _ => rfl, fun _ => rfl, fun _ => rfl, fun _ => rfl⟩
    have hrefines : Refines (fun n => origin = some n ∧ n = id) p (p.modify id fun n =>
        { n with matcher := n.matcher <|> (source >>= (·.matcher)) }) := by
      apply refines_modify h hplace fun _ => rfl
      intro hp
      apply matcher?_modify_eq_none _ hp
      intro node hnode
      dsimp only
      rw [hnode, hmatcher hp]
      rfl
    exact ⟨hrefines, hrefines.kind?_eq_some hkind, hrefines.isCanonical id hcanonical⟩
  case h_2 hnone =>
    have hnew := h.shape_notMem_of_representative? hsubs hnone
    split
    case h_1 id horigin =>
      -- the origin has this kind already, and becomes the representative
      have hkind : p.kind? id = some k := by
        rw [beq_iff_eq, ← hsource] at horigin
        exact horigin
      refine ⟨(refines_appoint h hkind hsubs hnew).mono ?_, ?_, isCanonical_appoint_self hkind⟩
      · rintro n rfl
        exact ⟨rfl, rfl⟩
      · rw [kind?_appoint, hkind]
    case h_2 =>
      obtain ⟨hrefines, hkind, hcanonical⟩ := h.refines_representative hk hsubs hnew
        (fun n => (source.map (·.description)).getD n.description) hmatcher hlead
      exact ⟨hrefines.mono fun n => False.elim, hkind, hcanonical⟩

end Sigil.Pool
