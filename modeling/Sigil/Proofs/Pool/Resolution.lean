import Sigil.Proofs.Pool.HashConsing
import Sigil.Proofs.Pool.Irreducible

namespace Sigil.Pool

variable {p q r : Pool} {id c d : PatternId} {k k' : Kind PatternId} {subs ids : List PatternId}

/-! ## Interning -/

/-- A canonical pattern is the representative of its layer. -/
theorem WellFormed.representative?_eq (h : p.WellFormed) (hk : p.kind? c = some k)
    (hc : p.isCanonical c = true) : p.representative? k = some c := by
  have hsubs : ∀ s ∈ k.subs, p.isCanonical s = true :=
    fun s hs => h.canonical_sub c s ⟨k, hk, hs⟩ hc
  cases hfind : p.representative? k with
  | none =>
    have hentry : (p.summary c).shape ∈ p.representatives.map (·.1) :=
      List.mem_map.2 ⟨_, (h.registered _ c).2 ⟨hc, rfl⟩, rfl⟩
    rw [h.settled c k hk] at hentry
    exact absurd hentry (h.shape_notMem_of_representative? hsubs hfind)
  | some e =>
    obtain ⟨he, hcanonical⟩ := representative?_eq_some h hfind
    rw [h.eq_of_kind?_eq hcanonical hc (he.trans hk.symm)]

/-- All that is done for a layer that has its representative is to offer it a matcher. -/
theorem WellFormed.intern_eq (h : p.WellFormed) (hk : p.kind? c = some k)
    (hc : p.isCanonical c = true) (lead : Fin 8) (origin : Option PatternId) :
    p.intern k lead origin =
      (c, p.modify c fun n =>
      { n with matcher := n.matcher <|> (origin >>= p.get?) >>= (·.matcher) }) := by
  unfold Pool.intern
  dsimp only
  rw [h.representative?_eq hk hc]

theorem WellFormed.intern_none (h : p.WellFormed) (hk : p.kind? c = some k)
    (hc : p.isCanonical c = true) (lead : Fin 8) : p.intern k lead none = (c, p) := by
  rw [h.intern_eq hk hc lead none, modify_eq_self fun node _ => ?_]
  obtain ⟨kind, storedAt, description, matcher⟩ := node
  cases matcher <;> rfl

/-! ## Joining -/

/-- The literal that was made out of two is found again. -/
theorem Joins.pushFused_again {m : Meaning} {reversed : List PatternId}
    (h : Joins p m (reversed, q)) (hid : p.isCanonical id = true) (hr : r.WellFormed)
    (hqr : (q.pushFused reversed id).2.Extends r) :
    r.pushFused reversed id = ((q.pushFused reversed id).1, r) := by
  cases reversed with
  | nil => rfl
  | cons last before =>
    have hgrown := (extends_pushAll (last :: before, q) [id]).trans hqr
    have hlast := contains_of_isCanonical (h.canonical last List.mem_cons_self)
    have hlive := contains_of_isCanonical (h.refines.isCanonical id hid)
    have hfuse : r.fuse? last id = q.fuse? last id :=
      fuse?_congr (hgrown.kind? last hlast) (hgrown.kind? id hlive)
    rw [Pool.pushFused, hfuse]
    rw [Pool.pushFused] at hqr ⊢
    cases hsome : q.fuse? last id with
    | none => rfl
    | some l =>
      rw [hsome] at hqr
      obtain ⟨a, b, ha, -, hfuses, rfl⟩ := fuse?_eq_some hsome
      have hq : q.WellFormed := h.refines.wellFormed
      obtain ⟨-, hkind, hcanonical⟩ := hq.intern (valid_append (hq.valid last _ ha) hfuses)
        (by simp [Kind.subs]) (fun haligned => haligned last) none
      dsimp only
      rw [hr.intern_none (hqr.kind?_eq_some hkind) (hqr.isCanonical _ hcanonical)]

theorem Joins.pushAll_again {m : Meaning} {state : List PatternId × Pool} (h : Joins p m state)
    (hids : ∀ id ∈ ids, p.isCanonical id = true) (hr : r.WellFormed)
    (hqr : (Pool.pushAll state ids).2.Extends r) :
    Pool.pushAll (state.1, r) ids = ((Pool.pushAll state ids).1, r) := by
  induction ids generalizing m state with
  | nil => rfl
  | cons id ids ih =>
    have hid := hids id List.mem_cons_self
    have hfirst := h.pushFused_again hid hr ((extends_pushAll _ ids).trans hqr)
    rw [pushAll_cons, pushAll_cons, hfirst]
    exact ih (h.pushFused hid) (fun s hs => hids s (List.mem_cons_of_mem id hs)) hqr

/-! ## All rules -/

theorem simplifyAlt_congr (hsubs : ∀ s ∈ subs, q.kind? s = p.kind? s)
    (hinner : ∀ s ∈ subs, ∀ t ∈ p.alternatives s, q.kind? t = p.kind? t ∧ q.lead t = p.lead t) :
    q.simplifyAlt subs = p.simplifyAlt subs := by
  have hflat : subs.flatMap q.alternatives = subs.flatMap p.alternatives :=
    List.flatMap_congr fun s hs => alternatives_congr (hsubs s hs)
  have hbytes : q.singleBytes? (distinct (subs.flatMap p.alternatives)) =
      p.singleBytes? (distinct (subs.flatMap p.alternatives)) := by
    have hsame : ∀ t ∈ distinct (subs.flatMap p.alternatives), q.kind? t = p.kind? t ∧
        q.lead t = p.lead t := by
      intro t ht
      obtain ⟨s, hs, ht⟩ := List.mem_flatMap.1 (mem_distinct.1 ht)
      exact hinner s hs t ht
    exact singleBytes?_congr (fun t ht => (hsame t ht).1) fun t ht => (hsame t ht).2
  unfold simplifyAlt
  rw [hflat]
  generalize distinct (subs.flatMap p.alternatives) = flat at hbytes ⊢
  split
  case h_1 => rfl
  case h_2 => rw [hbytes]

theorem WellFormed.simplify_seq (h : p.WellFormed) (hsubs : ∀ s ∈ subs, p.isCanonical s = true) :
    p.simplify (.seq subs) = (joined (pushAll ([], p) (subs.flatMap p.elements)).1.reverse,
      (pushAll ([], p) (subs.flatMap p.elements)).2) := by
  rw [simplify, simplifySeq_eq, h.joins_start.pushSubs_eq h hsubs]

/-- A rule that is applied to a layer again answers the same, and adds nothing. -/
theorem WellFormed.simplify_again (h : p.WellFormed) (hsubs : ∀ s ∈ k.subs, p.isCanonical s = true)
    (hr : r.WellFormed) (hqr : (p.simplify k).2.Extends r) :
    r.simplify k = ((p.simplify k).1, r) := by
  have hkind : ∀ s ∈ k.subs, r.kind? s = p.kind? s := fun s hs =>
    ((extends_simplify p k).trans hqr).kind? s (contains_of_isCanonical (hsubs s hs))
  cases k with
  | lit l | any bits | range lo hi | anchor a => rfl
  | alt subs =>
    have hinner : ∀ s ∈ subs, ∀ t ∈ p.alternatives s, r.kind? t = p.kind? t ∧
        r.lead t = p.lead t := by
      intro s hs t ht
      have hlive := contains_of_isCanonical (isCanonical_alternatives h (hsubs s hs) t ht)
      exact ⟨hqr.kind? t hlive, hqr.lead t hlive⟩
    exact congrArg (·, r) (simplifyAlt_congr hkind hinner)
  | seq subs =>
    have hcanonical : ∀ s ∈ subs, p.isCanonical s = true := hsubs
    have hcanonical' : ∀ s ∈ subs, r.isCanonical s = true := fun s hs =>
      ((extends_simplify p _).trans hqr).isCanonical s (hsubs s hs)
    have helements : subs.flatMap r.elements = subs.flatMap p.elements :=
      List.flatMap_congr fun s hs => elements_congr (hkind s hs)
    rw [h.simplify_seq hcanonical] at hqr ⊢
    rw [hr.simplify_seq hcanonical', helements,
      h.joins_start.pushAll_again (isCanonical_flatMap_elements h hcanonical) hr hqr]
  | rep sub counts =>
    rw [simplify, simplify, simplifyRep, simplifyRep, hkind sub (List.mem_singleton_self sub)]
  | ctx d sub => rw [simplify, simplify, hkind sub (List.mem_singleton_self sub)]

/-! ## What a layer resolves to -/

def Names (p : Pool) (c : PatternId) : Simplified → Prop
  | .existing id => id = c
  | .kind k => p.kind? c = some k

/-- The rules make the canonical pattern `c` of the layer, and have nothing to add for it. -/
structure Resolves (p : Pool) (k : Kind PatternId) (c : PatternId) : Prop where
  added : (p.simplify k).2 = p
  canonical : p.isCanonical c = true
  names : p.Names c (p.simplify k).1

theorem Irreducible.resolves (h : p.Irreducible k) (hk : p.kind? c = some k)
    (hc : p.isCanonical c = true) : p.Resolves k c := by
  have hsimplify := simplify_of_irreducible h
  exact ⟨by rw [hsimplify], hc, by rw [hsimplify]; exact hk⟩

namespace Resolves

theorem unique (h : p.Resolves k c) (h' : p.Resolves k d) (hp : p.WellFormed) : c = d := by
  obtain ⟨-, hc, hnames⟩ := h
  obtain ⟨-, hd, hnames'⟩ := h'
  cases hanswer : (p.simplify k).1 with
  | existing id =>
    rw [hanswer] at hnames hnames'
    exact hnames.symm.trans hnames'
  | kind k' =>
    rw [hanswer] at hnames hnames'
    exact hp.eq_of_kind?_eq hc hd (hnames.trans hnames'.symm)

theorem mono (h : p.Resolves k c) (hp : p.WellFormed) (hsubs : ∀ s ∈ k.subs, p.isCanonical s = true)
    (hpq : p.Extends q) (hq : q.WellFormed) : q.Resolves k c := by
  obtain ⟨hadded, hcanonical, hnames⟩ := h
  have hagain := hp.simplify_again hsubs hq (by rwa [hadded])
  refine ⟨by rw [hagain], hpq.isCanonical c hcanonical, ?_⟩
  rw [hagain]
  cases hanswer : (p.simplify k).1 with
  | existing id =>
    rw [hanswer] at hnames
    exact hnames
  | kind k' =>
    rw [hanswer] at hnames
    exact hpq.kind?_eq_some hnames

/-- A layer that resolves to a pattern is represented by it, and no node is added. -/
theorem represent (h : p.Resolves k c) (hp : p.WellFormed) (origin : PatternId) :
    (p.represent k origin).1 = c ∧ (p.represent k origin).2.nodes.size = p.nodes.size := by
  obtain ⟨hadded, hcanonical, hnames⟩ := h
  unfold Pool.represent
  split
  case h_1 id q hanswer =>
    rw [hanswer] at hadded hnames
    exact ⟨hnames, congrArg (·.nodes.size) hadded⟩
  case h_2 k' q hanswer =>
    rw [hanswer] at hadded hnames
    dsimp only at hadded
    rw [hadded, hp.intern_eq hnames hcanonical]
    exact ⟨rfl, size_modify ..⟩

end Resolves

/-- A layer that has been represented resolves to its canonical pattern. -/
theorem WellFormed.resolves_represent (h : p.WellFormed) (hvalid : k.Valid)
    (hsubs : ∀ s ∈ k.subs, p.isCanonical s = true) (origin : PatternId) :
    (p.represent k origin).2.Resolves k (p.represent k origin).1 := by
  obtain ⟨hrefines, hcanonical, -⟩ := h.represent hvalid hsubs origin
  obtain ⟨hsimplified, hmeans⟩ := answers_simplify h hvalid hsubs
  have hanswer : (p.simplify k).2.Extends (p.represent k origin).2 ∧
      (p.represent k origin).2.Names (p.represent k origin).1 (p.simplify k).1 := by
    unfold Pool.represent
    split
    case h_1 id q hexisting =>
      rw [hexisting]
      exact ⟨Extends.refl q, rfl⟩
    case h_2 k' q hkind =>
      rw [hkind] at hsimplified hmeans ⊢
      obtain ⟨hvalid', hcanonical', -⟩ := hmeans
      obtain ⟨hinterned, hkind', -⟩ := hsimplified.wellFormed.intern hvalid' hcanonical'
        (fun haligned => haligned origin) (some origin)
      exact ⟨hinterned.toExtends, hkind'⟩
  have hagain := h.simplify_again hsubs hrefines.wellFormed hanswer.1
  exact ⟨by rw [hagain], hcanonical, by rw [hagain]; exact hanswer.2⟩

end Sigil.Pool
