import Sigil.Proofs.Pool.Contexts
import Sigil.Proofs.Pool.Resolution

namespace Sigil

namespace Pool

open Relation (ReflTransGen)

variable {p q r p₀ : Pool} {id m n c d : PatternId} {k : Kind PatternId} {t : Shape}

/-! ## Forms of shapes -/

/-- From the leaves up, the layers of the shape resolve to canonical patterns, the last one to
`c`. -/
def Forms (p : Pool) (t : Shape) (c : PatternId) : Prop :=
  t.fold (fun layer c => ∃ k : Kind PatternId, layer.Rel (fun forms s => forms s) k ∧
    p.Resolves k c) c

theorem forms_node {layer : Kind Shape} :
    p.Forms (.node () layer) c ↔ ∃ k, layer.Rel p.Forms k ∧ p.Resolves k c := by
  unfold Forms
  rw [Tree.fold_node]
  exact exists_congr fun k => and_congr_left' Kind.Rel.map_left

theorem WellFormed.forms_iff (h : p.WellFormed) (hk : p.kind? id = some k) :
    q.Forms (p.summary id).shape c ↔
      ∃ k', k.Rel (fun s d => q.Forms (p.summary s).shape d) k' ∧ q.Resolves k' c := by
  have hshape : (p.summarize k).shape = .node () (k.map fun s => (p.summary s).shape) :=
    congrArg (Tree.node ()) (Kind.map_map p.summary (·.shape) k)
  rw [h.settled id k hk, hshape, forms_node]
  exact exists_congr fun k' => and_congr_left' Kind.Rel.map_left

namespace Forms

theorem isCanonical (h : p.Forms t c) : p.isCanonical c = true := by
  cases t with
  | node n layer =>
    obtain ⟨k, -, hk⟩ := forms_node.1 h
    exact hk.canonical

theorem unique (h : p.Forms t c) (h' : p.Forms t d) (hp : p.WellFormed) : c = d := by
  induction t using Tree.induct_subs generalizing c d with
  | node n layer ih =>
    obtain ⟨k, hrel, hk⟩ := forms_node.1 h
    obtain ⟨k', hrel', hk'⟩ := forms_node.1 h'
    obtain rfl := hrel.unique hrel' fun s hs e e' he he' => ih s hs he he'
    exact hk.unique hk' hp

theorem mono (h : p.Forms t c) (hp : p.WellFormed) (hpq : p.Extends q) (hq : q.WellFormed) :
    q.Forms t c := by
  induction t using Tree.induct_subs generalizing c with
  | node n layer ih =>
    obtain ⟨k, hrel, hk⟩ := forms_node.1 h
    refine forms_node.2 ⟨k, hrel.mono_of_mem fun s hs e he => ih s hs he,
      hk.mono hp (fun s hs => ?_) hpq hq⟩
    obtain ⟨u, -, hu⟩ := hrel.exists_of_mem hs
    exact hu.isCanonical

end Forms

/-- No rule applies to canonical patterns, so their shapes have them for their forms. -/
theorem Normal.forms_self (h : p.Normal) (hp : p.WellFormed) (hc : p.isCanonical c = true) :
    p.Forms (p.summary c).shape c := by
  refine hp.induction (P := fun n => p.isCanonical n = true → p.Forms (p.summary n).shape n) ?_
    (contains_of_isCanonical hc) hc
  intro n ih hn
  obtain ⟨k, hk⟩ := kind?_isSome_iff.2 (contains_of_isCanonical hn)
  refine (hp.forms_iff hk).2 ⟨k, Kind.Rel.refl fun s hs => ?_, (h n k hn hk).resolves hk hn⟩
  exact ih s ⟨k, hk, hs⟩ (hp.canonical_sub n s ⟨k, hk, hs⟩ hn)

/-! ## Working on a pattern -/

section Work

variable {st st' : Progress} {ids cs : List PatternId}

/-- No rule applies to canonical patterns, and what is known of patterns are the forms of their
shapes. -/
structure Informed (p₀ : Pool) (st : Progress) : Prop where
  normal : st.1.Normal
  known : ∀ id c, st.2.lookup id = some c → st.1.Forms (p₀.summary id).shape c

/-- The answer is the form of the shape. If there was one before, no node was added. -/
structure Formed (p₀ : Pool) (id : PatternId) (st : Progress) (c : PatternId) (st' : Progress) :
    Prop where
  informed : Informed p₀ st'
  forms : st'.1.Forms (p₀.summary id).shape c
  size : ∀ d, st.1.Forms (p₀.summary id).shape d → st'.1.nodes.size = st.1.nodes.size

theorem Informed.learn (h : Informed p₀ st) (hc : st.1.Forms (p₀.summary id).shape c) :
    Informed p₀ (st.1, (id, c) :: st.2) where
  normal := h.normal
  known := forall_lookup_cons h.known hc

theorem InTurn.formed
    (h : InTurn (fun id st c st' => Found p₀ id st c st' ∧
      (Informed p₀ st → Formed p₀ id st c st')) ids st cs st')
    (hst : Sound p₀ st) (hinformed : Informed p₀ st) :
    Informed p₀ st' ∧ List.Forall₂ (fun s d => st'.1.Forms (p₀.summary s).shape d) ids cs ∧
      ((∀ s ∈ ids, ∃ d, st.1.Forms (p₀.summary s).shape d) →
        st'.1.nodes.size = st.1.nodes.size) := by
  induction h with
  | nil st => exact ⟨hinformed, .nil, fun _ => rfl⟩
  | @cons s c ids cs st st' st'' first rest ih =>
    obtain ⟨hfound, hformed⟩ := first
    have hfirst := hformed hinformed
    obtain ⟨hlast, hall, hsize⟩ := ih hfound.sound hfirst.informed
    obtain ⟨hgrown, -⟩ := (rest.mono fun _ _ _ _ h => h.1).found hfound.sound
    refine ⟨hlast,
      .cons (hfirst.forms.mono hfound.sound.wellFormed hgrown.toExtends hgrown.wellFormed) hall, ?_⟩
    intro hbefore
    obtain ⟨d, hd⟩ := hbefore s List.mem_cons_self
    refine (hsize fun t ht => ?_).trans (hfirst.size d hd)
    obtain ⟨e, he⟩ := hbefore t (List.mem_cons_of_mem s ht)
    exact ⟨e, he.mono hst.wellFormed hfound.refines.toExtends hfound.sound.wellFormed⟩

/-- A pattern of which the sub-patterns have been worked on gets the form of its shape. -/
theorem WellFormed.formed_represent (h₀ : p₀.WellFormed) (hk : p₀.kind? id = some k)
    (hst : Sound p₀ st) (hinformed : Informed p₀ st) {k' : Kind PatternId}
    (hrel : k.Rel (fun s d => st.1.Forms (p₀.summary s).shape d) k') :
    Formed p₀ id st (st.1.represent k' id).1
      ((st.1.represent k' id).2, (id, (st.1.represent k' id).1) :: st.2) := by
  have hp : st.1.WellFormed := hst.wellFormed
  have hvalid : k'.Valid := hrel.valid_iff.1 (h₀.valid id k hk)
  have hcanonical : ∀ c ∈ k'.subs, st.1.isCanonical c = true := by
    intro c hc
    obtain ⟨s, -, hs⟩ := hrel.exists_of_mem hc
    exact hs.isCanonical
  obtain ⟨hrefines, -⟩ := hp.represent hvalid hcanonical id
  have hlater : ∀ {t : Shape} {d : PatternId}, st.1.Forms t d →
      (st.1.represent k' id).2.Forms t d := fun hd =>
    hd.mono hp hrefines.toExtends hrefines.wellFormed
  have hforms : (st.1.represent k' id).2.Forms (p₀.summary id).shape (st.1.represent k' id).1 :=
    (h₀.forms_iff hk).2 ⟨k', hrel.mono fun _ _ => hlater,
      hp.resolves_represent hvalid hcanonical id⟩
  refine ⟨?_, hforms, fun d hd => ?_⟩
  · have hgrown : Informed p₀ ((st.1.represent k' id).2, st.2) :=
      ⟨hinformed.normal.represent hp hvalid hcanonical id, fun n c hn =>
        hlater (hinformed.known n c hn)⟩
    exact hgrown.learn hforms
  · -- the layer over the forms of the sub-patterns is this one
    obtain ⟨k'', hrel', hk''⟩ := (h₀.forms_iff hk).1 hd
    obtain rfl := hrel.unique hrel' fun s _ e e' he he' => he.unique he' hp
    exact (hk''.represent hp id).2

/-- Canonicalization answers with the form of the shape, and adds no node if there is one
already. -/
theorem WellFormed.formed_canonicalOf (h : p.WellFormed) (hnormal : p.Normal)
    (hid : p.contains id = true) :
    Formed p id (p, []) ((Pool.canonicalOf p.nodes.size id).run (p, [])).1
      ((Pool.canonicalOf p.nodes.size id).run (p, [])).2 := by
  have hstart : Informed p (p, []) := ⟨hnormal, fun _ _ hn => absurd hn (by simp)⟩
  refine (h.canonicalOf_induct (Q := fun id st c st' => Informed p st →
    Formed p id st c st') ?_ ?_ ?_ hid
    h.sound_start).2 hstart
  · intro n st c _ _ hknown hinformed
    exact ⟨hinformed, hinformed.known n c hknown, fun _ _ => rfl⟩
  · intro n st hst hn _ hcanonical hinformed
    have hforms : st.1.Forms (p.summary n).shape n := by
      rw [← hst.extends_start.summary n hn]
      exact hinformed.normal.forms_self hst.wellFormed hcanonical
    exact ⟨hinformed.learn hforms, hforms, fun _ _ => rfl⟩
  · intro n k k' st st' hst _ hk _ hsound hrefines hrel hturn c st'' _ hinformed
    obtain ⟨hinformed', hall, hsize⟩ := hturn.formed hst hinformed
    have hformed := h.formed_represent hk hsound hinformed' (hrel.of_forall₂ hall)
    refine ⟨hformed.informed, hformed.forms, fun d hd => ?_⟩
    have hlater := hd.mono hst.wellFormed hrefines.toExtends hsound.wellFormed
    refine (hformed.size d hlater).trans (hsize fun s hs => ?_)
    obtain ⟨k'', hrel', -⟩ := (h.forms_iff hk).1 hd
    obtain ⟨e, -, he⟩ := hrel'.exists_of_mem_left hs
    exact ⟨e, he⟩

end Work

/-! ## Canonical patterns -/

/-- Where no node was added, all patterns are as they were. -/
theorem Extends.kind?_eq_of_size (h : p.Extends q) (hsize : q.nodes.size = p.nodes.size) :
    q.kind? = p.kind? := by
  funext n
  cases hn : p.contains n with
  | true => exact h.kind? n hn
  | false =>
    have hq : q.contains n = false := by
      rw [← Bool.not_eq_true] at hn ⊢
      exact fun hlive => hn (h.ages.contains n (hsize ▸ index_lt_of_contains hlive) hlive)
    rw [kind?_eq_none hq, kind?_eq_none hn]

theorem WellFormed.canonicalize_forms (h : p.WellFormed) (hnormal : p.Normal)
    (hid : p.contains id = true) :
    ∃ c q, Edit.canonicalize id p = .ok c q ∧ p.Extends q ∧ q.WellFormed ∧ q.Normal ∧
      q.Forms (p.summary id).shape c ∧ ∀ d, p.Forms (p.summary id).shape d →
        q.nodes.size = p.nodes.size := by
  have hfound := h.found_canonicalOf hid
  have hformed := h.formed_canonicalOf hnormal hid
  exact ⟨_, _, Edit.canonicalize_eq hid, hfound.refines.toExtends, hfound.sound.wellFormed,
    hformed.informed.normal, hformed.forms, hformed.size⟩

/-- Nothing is added for a pattern whose shape has a form. -/
theorem WellFormed.canonicalize_of_forms (h : p.WellFormed) (hnormal : p.Normal)
    (hid : p.contains id = true) (hc : p.Forms (p.summary id).shape c) :
    ∃ q, Edit.canonicalize id p = .ok c q ∧ q.nodes.size = p.nodes.size ∧ q.kind? = p.kind? := by
  obtain ⟨d, q, hrun, hextends, hq, -, hd, hsize⟩ := h.canonicalize_forms hnormal hid
  obtain rfl := hd.unique (hc.mono h hextends hq) hq
  exact ⟨q, hrun, hsize d hc, hextends.kind?_eq_of_size (hsize d hc)⟩

theorem WellFormed.normal_canonicalize (h : p.WellFormed) (hnormal : p.Normal) (id : PatternId) :
    ((Edit.canonicalize id).after p).Normal := by
  unfold Edit.after
  cases hid : p.contains id with
  | false => rwa [Edit.canonicalize_eq_error hid]
  | true =>
    obtain ⟨c, q, hrun, -, -, hq, -⟩ := h.canonicalize_forms hnormal hid
    rwa [hrun]

/-- Whatever is done to a pool, no rule applies to its canonical patterns. -/
theorem normal_run (cs : List Command) : (run cs).Normal := by
  induction cs using List.reverseRecOn with
  | nil => exact fun n k _ hk => absurd hk (by simp [run, kind?, get?])
  | append_singleton cs x ih =>
    rw [run_concat]
    obtain ⟨q, hq, hinherits⟩ := (wellFormed_run cs).inherits_apply x
    refine Normal.inherits ?_ ((wellFormed_run cs).obeys x).wellFormed hinherits
    rcases hq with rfl | ⟨id, rfl⟩
    · exact ih
    · exact (wellFormed_run cs).normal_canonicalize ih id

/-- A pattern of the structure of a canonical one has this for its canonical pattern. -/
theorem WellFormed.canonicalize_of_structurallyEq (h : p.WellFormed) (hnormal : p.Normal)
    (hc : p.isCanonical c = true) (hn : p.contains n = true) (hsame : p.structurallyEq n c = true) :
    ∃ q, Edit.canonicalize n p = .ok c q ∧ q.nodes.size = p.nodes.size ∧ q.kind? = p.kind? := by
  refine h.canonicalize_of_forms hnormal hn ?_
  rw [(h.structurallyEq_iff_shape hn (contains_of_isCanonical hc)).1 hsame]
  exact hnormal.forms_self h hc

/-- Canonical patterns are normal forms. In every pool with a history, the canonical pattern of a
live one is its own canonical pattern, and no rule applies to a layer of it. To canonicalize the
live pattern again, or then another one of its structure, gives the same answer and adds no node.
Whatever is done later, as long as the answer is canonical, every pattern of its structure is
canonicalized to it and no node is added; and patterns that are made afresh leave it canonical. -/
theorem run_canonicalize_normal (cs : List Command) (a : PatternId)
    (ha : (run cs).contains a = true) :
    let p := run cs
    ∃ c q, Edit.canonicalize a p = .ok c q ∧ Edit.canonicalize c q = .ok c q ∧
      (∃ r, Edit.canonicalize a q = .ok c r ∧ r.nodes.size = q.nodes.size ∧ r.kind? = q.kind?) ∧
      (∀ b, p.contains b = true → p.structurallyEq a b = true →
        ∃ r, Edit.canonicalize b q = .ok c r ∧ r.nodes.size = q.nodes.size ∧ r.kind? = q.kind?) ∧
      (∀ n k, ReflTransGen q.Embeds c n → q.kind? n = some k → q.simplify k = (.kind k, q)) ∧
      ∀ ds, let r := run (cs ++ .canonicalize a :: ds)
        (q.Afresh ds → r.isCanonical c = true) ∧
          (r.isCanonical c = true → ∀ n, r.contains n = true → r.structurallyEq n c = true →
            ∃ t, Edit.canonicalize n r = .ok c t ∧ t.nodes.size = r.nodes.size ∧
              t.kind? = r.kind?) := by
  intro p
  have hp : p.WellFormed := wellFormed_run cs
  obtain ⟨c, q, hrun, hextends, hq, hnormal, hforms, -⟩ := hp.canonicalize_forms (normal_run cs) ha
  have hcanonical : q.isCanonical c = true := hforms.isCanonical
  -- all patterns of the shape have `c` for their form
  have hsame : ∀ b, p.contains b = true → (p.summary b).shape = (p.summary a).shape →
      ∃ r, Edit.canonicalize b q = .ok c r ∧ r.nodes.size = q.nodes.size ∧ r.kind? = q.kind? := by
    intro b hb hshape
    refine hq.canonicalize_of_forms hnormal (hextends.contains hb) ?_
    rwa [hextends.summary b hb, hshape]
  refine ⟨c, q, hrun, Edit.canonicalize_of_canonical hcanonical, hsame a ha rfl, fun b hb hab => ?_,
    fun n k hn hk => ?_, fun ds => ?_⟩
  · exact hsame b hb ((hp.structurallyEq_iff_shape ha hb).1 hab).symm
  · exact simplify_of_irreducible (hnormal n k (hq.isCanonical_of_reaches hcanonical hn) hk)
  · have hr : run (cs ++ .canonicalize a :: ds) = ds.foldl (fun q c => c.apply q) q := by
      rw [run, List.foldl_append, List.foldl_cons]
      show ds.foldl _ ((Edit.canonicalize a).after p) = _
      rw [Edit.after, hrun]
    refine ⟨fun hds => ?_,
      fun hc n => (wellFormed_run _).canonicalize_of_structurallyEq (normal_run _) hc⟩
    rw [hr]
    have hupholds := (Upholds.refl q).foldl hq hq hds
    exact (hupholds c (contains_of_isCanonical hcanonical)).2 hcanonical

/-- Two letters in sequence are canonicalized to a literal of both, to which this literal is
canonicalized too where it is made afresh. -/
theorem run_canonicalize_normal_letters :
    let cs : List Command := [.lit [97], .lit [98], .seq [⟨0⟩, ⟨1⟩]]
    let r := run (cs ++ [.canonicalize ⟨2⟩, .lit [97, 98]])
    (run cs).contains ⟨2⟩ = true ∧ ∃ q, Edit.canonicalize ⟨2⟩ (run cs) = .ok ⟨3⟩ q ∧
      (∃ t, Edit.canonicalize ⟨2⟩ q = .ok ⟨3⟩ t ∧ t.nodes.size = q.nodes.size) ∧
        ∃ t, Edit.canonicalize ⟨4⟩ r = .ok ⟨3⟩ t ∧ t.nodes.size = r.nodes.size := by
  intro cs r
  have hlive : (run cs).contains ⟨2⟩ = true := by decide
  obtain ⟨c, q, hrun, -, ⟨t, ht, hsize, -⟩, -, -, hafter⟩ := run_canonicalize_normal cs ⟨2⟩ hlive
  have hanswer : ∃ q', Edit.canonicalize ⟨2⟩ (run cs) = .ok ⟨3⟩ q' := ⟨_, rfl⟩
  obtain ⟨q', hq'⟩ := hanswer
  obtain ⟨rfl, -⟩ := EStateM.Result.ok.inj (hrun.symm.trans hq')
  obtain ⟨hafresh, hsame⟩ := hafter [.lit [97, 98]]
  have hds : q.Afresh [.lit [97, 98]] :=
    List.forall_mem_singleton.2 ⟨rfl, fun n hn => absurd hn (by simp [Command.pushed?])⟩
  obtain ⟨u, hu, husize, -⟩ := hsame (hafresh hds) ⟨4⟩ (by decide) (by decide)
  exact ⟨hlive, q, hrun, ⟨t, ht, hsize⟩, u, hu, husize⟩

end Pool

end Sigil
