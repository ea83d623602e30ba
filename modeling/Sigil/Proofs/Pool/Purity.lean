import Sigil.Proofs.Pool.Splice

namespace Sigil.Pool

open Relation (ReflTransGen TransGen)

variable {p q : Pool} {id m n : PatternId} {k : Kind PatternId}

/-! ## Labels -/

theorem label_add (p : Pool) (k : Kind PatternId) {lead : Fin 8} (hn : p.contains n = true) :
    (p.add k lead).2.label n = p.label n := by
  refine (view_add p k
    (Option.map fun node => (node.description, node.matcher, node.roots, node.lead))
    (fun _ _ => rfl) n).trans ?_
  rw [if_neg (ne_fresh_of_contains hn), label]

theorem label_appoint (p : Pool) (id : PatternId) : (p.appoint id).label = p.label :=
  label_modify fun _ => ⟨rfl, rfl, rfl, rfl⟩

/-- The label of a pattern to which a matcher is offered, which it takes if it has none. -/
def offered (matcher : Option Matcher) (label : Label) : Label :=
  (label.1, label.2.1 <|> matcher, label.2.2)

def given (matcher : Matcher) (label : Label) : Label :=
  (label.1, some matcher, label.2.2)

theorem map_offered_none (label : Option Label) : label.map (offered none) = label := by
  cases label with
  | none => rfl
  | some label =>
    obtain ⟨description, matcher, rest⟩ := label
    cases matcher <;> rfl

theorem matcher?_eq_label (p : Pool) (n : PatternId) : p.matcher? n = (p.label n).bind (·.2.1) := by
  rw [matcher?, label]
  cases p.get? n <;> rfl

theorem map_offered_of_matcher? {matcher : Matcher} (h : p.matcher? n = some matcher)
    (other : Option Matcher) : (p.label n).map (offered other) = p.label n := by
  rw [matcher?_eq_label] at h
  obtain ⟨⟨description, own, rest⟩, hlabel, rfl⟩ := Option.bind_eq_some_iff.1 h
  rw [hlabel]
  rfl

theorem map_offered_of_none (h : p.matcher? n = none) (matcher : Matcher) :
    (p.label n).map (offered (some matcher)) = (p.label n).map (given matcher) := by
  rw [matcher?_eq_label] at h
  cases hlabel : p.label n with
  | none => rfl
  | some label =>
    obtain ⟨description, own, rest⟩ := label
    rw [hlabel, Option.bind_some] at h
    rw [show own = none from h]
    rfl

theorem map_given_offered (label : Option Label) (matcher : Matcher) (other : Option Matcher) :
    (label.map (given matcher)).map (offered other) = label.map (given matcher) := by
  cases label <;> rfl

theorem matcher?_of_given {matcher : Matcher} (hn : p.contains n = true)
    (h : q.label n = (p.label n).map (given matcher)) : q.matcher? n = some matcher := by
  obtain ⟨node, hnode⟩ := Option.isSome_iff_exists.1 hn
  rw [matcher?_eq_label, h, label, hnode]
  rfl

/-- Interning offers the matcher of the origin to the representative, and changes no other label. -/
theorem label_intern (k : Kind PatternId) (lead : Fin 8) (origin : Option PatternId)
    (hn : p.contains n = true) :
    (p.intern k lead origin).2.label n = p.label n ∨
      n = (p.intern k lead origin).1 ∧
        (p.intern k lead origin).2.label n =
          (p.label n).map (offered (origin.bind p.matcher?)) := by
  have hsource : (origin >>= p.get?) >>= (·.matcher) = origin.bind p.matcher? := by
    cases origin <;> rfl
  unfold Pool.intern
  dsimp only
  rw [hsource]
  split
  case h_1 id _ =>
    dsimp only
    by_cases hid : n = id
    · refine Or.inr ⟨hid, ?_⟩
      rw [label, get?_modify, if_pos hid, label]
      cases p.get? n <;> rfl
    · refine Or.inl ?_
      rw [label, get?_modify, if_neg hid, label]
  case h_2 =>
    refine Or.inl ?_
    split
    case h_1 => rw [label_appoint]
    case h_2 =>
      dsimp only
      rw [label_appoint, label, get?_modify]
      exact (congrArg _ (if_neg (ne_fresh_of_contains hn))).trans (label_add p k hn)

/-- A rule changes no label. -/
theorem label_simplify (k : Kind PatternId) (hn : p.contains n = true) :
    (p.simplify k).2.label n = p.label n := by
  have hkept := simplify_rel (R := fun p q => ∀ n, p.contains n = true → q.contains n = true ∧
    q.label n = p.label n)
    (fun _ _ hn => ⟨hn, rfl⟩)
    (fun p q r h h' n hn => ⟨(h' n (h n hn).1).1, ((h' n (h n hn).1).2).trans (h n hn).2⟩)
    (fun p l last n hn =>
      ⟨(extends_intern p _ (fun haligned => haligned last) none).contains hn, ?_⟩) p k
  · exact (hkept n hn).2
  · rcases label_intern (.lit l) (p.lead last) none hn with hsame | ⟨-, hoffered⟩
    · exact hsame
    · rw [hoffered, Option.bind_none, map_offered_none]

/-- Of the patterns that there are, a pattern that comes to represent another one is offered its
matcher. -/
theorem label_represent (k : Kind PatternId) {origin : PatternId}
    (horigin : p.contains origin = true) (hn : p.contains n = true) :
    (p.represent k origin).2.label n = p.label n ∨
      n = (p.represent k origin).1 ∧
        (p.represent k origin).2.label n = (p.label n).map (offered (p.matcher? origin)) := by
  have hextends := extends_simplify p k
  have hlabel : ∀ m, p.contains m = true → (p.simplify k).2.label m = p.label m :=
    fun m => label_simplify k
  unfold Pool.represent
  split
  case h_1 c q hanswer =>
    rw [hanswer] at hlabel
    exact Or.inl (hlabel n hn)
  case h_2 k' q hanswer =>
    rw [hanswer] at hextends hlabel
    dsimp only at hextends hlabel
    have hmatcher : q.matcher? origin = p.matcher? origin := by
      rw [matcher?_eq_label, hlabel origin horigin, ← matcher?_eq_label]
    rw [← hlabel n hn, ← hmatcher]
    exact label_intern k' (q.lead origin) (some origin) (hextends.contains hn)

/-! ## A run of the canonicalization -/

/-- All patterns of `p₀` have the labels that they had, but that canonical ones without a matcher
may have taken that of a pattern at or under `root`, which means the same if no literal is stored
out of line. -/
def Spared (p₀ : Pool) (root : PatternId) (q : Pool) : Prop := ∀ n, p₀.contains n = true →
  q.label n = p₀.label n ∨
    q.isCanonical n = true ∧ p₀.matcher? n = none ∧ ∃ m matcher, ReflTransGen p₀.Embeds root m ∧
      p₀.isCanonical m = false ∧ p₀.matcher? m = some matcher ∧
        (p₀.Aligned → p₀.meaning n = p₀.meaning m) ∧
        q.label n = (p₀.label n).map (given matcher)

/-- Patterns that are not canonical have the labels that they had. -/
theorem Spared.label_eq {p₀ : Pool} {root : PatternId} (h : Spared p₀ root q)
    (hn : p₀.contains n = true) (hcanonical : q.isCanonical n = false) :
    q.label n = p₀.label n := by
  refine (h n hn).resolve_right ?_
  rintro ⟨hq, -⟩
  rw [hq] at hcanonical
  exact Bool.noConfusion hcanonical

/-- The pattern that is worked on offers its matcher to its canonical one. -/
theorem Spared.represent {p₀ : Pool} {root : PatternId} (h : Spared p₀ root q)
    (hextends : p₀.Extends q) (hid : p₀.contains id = true) (hroot : ReflTransGen p₀.Embeds root id)
    (hcanonical : q.isCanonical id = false)
    (hstands : Stands p₀ (q.represent k id).2 id (q.represent k id).1) :
    Spared p₀ root (q.represent k id).2 := by
  intro n hn
  have hq : q.Extends (q.represent k id).2 := extends_represent q k id
  have hoffer := label_represent (p := q) k (hextends.contains hid) (hextends.contains hn)
  have hmatcher : q.matcher? id = p₀.matcher? id := by
    rw [matcher?_eq_label, h.label_eq hid hcanonical, ← matcher?_eq_label]
  rw [hmatcher] at hoffer
  rcases h n hn with hsame | ⟨hqn, hnone, m, matcher, hm, hold, hsome, hmeaning, hlabel⟩
  · rw [hsame] at hoffer
    rcases hoffer with hsame | ⟨rfl, hoffered⟩
    · exact Or.inl hsame
    cases hsome : p₀.matcher? id with
    | none =>
      rw [hsome, map_offered_none] at hoffered
      exact Or.inl hoffered
    | some matcher =>
      cases hown : p₀.matcher? (q.represent k id).1 with
      | some own => exact Or.inl (hoffered.trans (map_offered_of_matcher? hown _))
      | none =>
        have hold : p₀.isCanonical id = false := by
          by_contra hcan
          rw [hextends.isCanonical id (Bool.not_eq_false _ ▸ hcan)] at hcanonical
          exact Bool.noConfusion hcanonical
        have hmeaning := (hextends.trans hq).meaning hn
        rw [hsome, map_offered_of_none hown] at hoffered
        exact Or.inr ⟨hstands.canonical, rfl, id, matcher, hroot, hold, hsome,
          fun haligned => hmeaning.symm.trans (hstands.meaning haligned), hoffered⟩
  · -- the matcher that it took over stays
    refine Or.inr ⟨hq.isCanonical n hqn, hnone, m, matcher, hm, hold, hsome, hmeaning, ?_⟩
    rw [hlabel] at hoffer
    rcases hoffer with hsame | ⟨-, hoffered⟩
    · exact hsame
    · rw [hoffered, map_given_offered]

/-- A canonicalization offers matchers of patterns at and under the one that it starts from. -/
theorem WellFormed.spared_canonicalOf (h : p.WellFormed) (hid : p.contains id = true) :
    Spared p id ((Pool.canonicalOf p.nodes.size id).run (p, [])).2.1 := by
  have hrun := h.canonicalOf_induct (Q := fun s st _ st' =>
    ReflTransGen p.Embeds id s → Spared p id st.1 → Spared p id st'.1) ?_ ?_ ?_ hid h.sound_start
  · exact hrun.2 ReflTransGen.refl fun n _ => Or.inl rfl
  · exact fun _ _ _ _ _ _ _ hst => hst
  · exact fun _ _ _ _ _ _ _ hst => hst
  · intro s k k' st st' hst _ hk hcanonical hsound hrefines hrel hturn c st'' hfound hreach hspared
    have hs : p.contains s = true := kind?_isSome_iff.1 ⟨k, hk⟩
    have hspared' : Spared p id st'.1 :=
      hturn.invariant (fun n hn _ _ _ hQ => hQ.2 (hreach.tail ⟨k, hk, hn⟩)) hspared
    -- what is under the pattern has become canonical at most, and not the pattern itself
    have hcanonical' : st'.1.isCanonical s = false := by
      by_contra hnew
      rcases hrefines.newly s (hst.extends_start.contains hs) (Bool.not_eq_false _ ▸ hnew) with hold
        | ⟨n, hn, hns⟩
      · rw [hold] at hcanonical
        exact Bool.noConfusion hcanonical
      · exact h.acyclic s (TransGen.head' ⟨k, hk, hn⟩ hns)
    exact hspared'.represent hsound.extends_start hs hreach hcanonical' hfound.stands

/-! ## What patterns keep -/

theorem note_eq {node node' : Node} (hn : p.get? n = some node) (hq : q.get? n = some node')
    (hlabel : q.label n = p.label n) (hsummary : q.summary n = p.summary n) :
    node'.note = node.note := by
  rw [label, label, hn, hq, Option.map_some, Option.map_some, Option.some.injEq, Prod.mk.injEq,
    Prod.mk.injEq, Prod.mk.injEq] at hlabel
  rw [summary, summary, hn, hq] at hsummary
  obtain ⟨hdescription, hmatcher, -, hlead⟩ := hlabel
  rw [Node.note, Node.note, hdescription, hmatcher, hlead, show node'.summary =
    node.summary from hsummary]

/-- A pattern has the tree that it had if no label at or under it has changed. -/
theorem Extends.tree?_eq (h : p.Extends q) (hp : p.WellFormed) (hq : q.WellFormed)
    (hn : p.contains n = true) (hlabel : ∀ m, ReflTransGen p.Embeds n m → q.label m = p.label m) :
    q.tree? n = p.tree? n := by
  refine hp.induction (P := fun n => p.contains n = true →
    (∀ m, ReflTransGen p.Embeds n m → q.label m = p.label m) → q.tree? n = p.tree? n) ?_
      hn hn hlabel
  intro m ih hm hlabel
  obtain ⟨node, hnode⟩ := Option.isSome_iff_exists.1 hm
  obtain ⟨node', hnode'⟩ := Option.isSome_iff_exists.1 (h.contains hm)
  have hkind : node'.kind = node.kind := by
    have hsame := h.kind? m hm
    rw [kind?_of_get? hnode, kind?_of_get? hnode'] at hsame
    exact Option.some.inj hsame
  rw [hq.tree?_eq hnode', hp.tree?_eq hnode, hkind,
    note_eq hnode hnode' (hlabel m ReflTransGen.refl) (h.summary m hm)]
  refine congrArg (Option.map (Tree.node node.note)) (Kind.traverse_congr fun s hs => ?_)
  have hms : p.Embeds m s := ⟨_, kind?_of_get? hnode, hs⟩
  exact ih s hms (hp.contains_sub hms) fun t ht => hlabel t (ht.head hms)

/-- Back edges are added for new patterns only. -/
theorem Extends.mem_supers_iff (h : p.Extends q) (hp : p.WellFormed) (hq : q.WellFormed) :
    m ∈ q.supers n ↔ m ∈ p.supers n ∨ p.contains m = false ∧ q.Embeds m n := by
  rw [hq.mem_supers, hp.mem_supers]
  cases hm : p.contains m with
  | true => simp [h.embeds_iff hm]
  | false =>
    have hnot : ¬ p.Embeds m n := fun hmn => by
      rw [hmn.contains] at hm
      exact Bool.noConfusion hm
    simp [hnot]

/-- Canonicalization leaves every pattern that there was alone, but that a canonical one without a
matcher may take over that of a pattern at or under the canonicalized one. The two mean the same if
no literal begins inside a byte of its storage, of which single bytes are read. What has no such
pattern at or under it matches as before, and if there is no matcher at or under the canonicalized
pattern, this is everything. -/
theorem run_canonicalize_pure (cs : List Command) (id : PatternId)
    (hid : (run cs).contains id = true) :
    let p := run cs
    ∃ c q, Edit.canonicalize id p = .ok c q ∧
      (∀ n, p.contains n = true →
        q.kind? n = p.kind? n ∧ q.summary n = p.summary n ∧
        (q.label n = p.label n ∨
          q.isCanonical n = true ∧ p.matcher? n = none ∧ ∃ m matcher, ReflTransGen p.Embeds id m ∧
            p.isCanonical m = false ∧ p.matcher? m = some matcher ∧
              (p.Aligned → p.meaning n = p.meaning m) ∧
              q.label n = (p.label n).map (given matcher)) ∧
        (∀ m, m ∈ q.supers n ↔ m ∈ p.supers n ∨ p.contains m = false ∧ q.Embeds m n) ∧
        ((∀ m, ReflTransGen p.Embeds n m → q.matcher? m = p.matcher? m) →
          q.tree? n = p.tree? n ∧ ∀ data region mode, q.matchIn n data region mode =
            p.matchIn n data region mode)) ∧
      ((∀ m, ReflTransGen p.Embeds id m → p.matcher? m = none) → ∀ n, p.contains n = true →
        q.label n = p.label n ∧ q.tree? n = p.tree? n ∧
          ∀ data region mode, q.matchIn n data region mode = p.matchIn n data region mode) := by
  intro p
  have hp : p.WellFormed := wellFormed_run cs
  have hspared : Spared p id _ := hp.spared_canonicalOf hid
  obtain ⟨c, q, hrun, hrefines, -⟩ := Edit.canonicalize_spec hp hid
  have hq : ((Pool.canonicalOf p.nodes.size id).run (p, [])).2.1 = q := by
    rw [Edit.canonicalize_eq hid] at hrun
    injection hrun
  rw [hq] at hspared
  have htree : ∀ n, p.contains n = true → (∀ m, ReflTransGen p.Embeds n m → q.label m = p.label m) →
      q.tree? n = p.tree? n ∧ ∀ data region mode, q.matchIn n data region mode =
        p.matchIn n data region mode := by
    intro n hn hlabel
    have hsame := hrefines.toExtends.tree?_eq hp hrefines.wellFormed hn hlabel
    exact ⟨hsame, fun _ _ _ => by rw [matchIn, matchIn, hsame]⟩
  have hlive : ∀ n m, p.contains n = true → ReflTransGen p.Embeds n m → p.contains m = true :=
    fun n m hn => hp.contains_of_reaches hn
  refine ⟨c, q, hrun, fun n hn => ⟨hrefines.kind? n hn, hrefines.summary n hn, hspared n hn,
    fun m => hrefines.toExtends.mem_supers_iff hp hrefines.wellFormed, fun hmatcher =>
      htree n hn fun m hm => ?_⟩, fun hbare n hn => ?_⟩
  · -- a pattern that took a matcher over had none before
    refine (hspared m (hlive n m hn hm)).resolve_right ?_
    rintro ⟨-, hnone, _, matcher, -, -, -, -, hgiven⟩
    have hsame := hmatcher m hm
    rw [matcher?_of_given (hlive n m hn hm) hgiven, hnone] at hsame
    cases hsame
  · have hlabel : ∀ m, p.contains m = true → q.label m = p.label m := by
      intro m hm
      refine (hspared m hm).resolve_right ?_
      rintro ⟨-, -, source, matcher, hreach, -, hsome, -⟩
      rw [hbare source hreach] at hsome
      cases hsome
    exact ⟨hlabel n hn, htree n hn fun m hm => hlabel m (hlive n m hn hm)⟩

/-- A letter in a sequence of its own, as which it is canonicalized. -/
theorem run_canonicalize_pure_letter :
    ∃ c q, Edit.canonicalize ⟨1⟩ (run [.lit [97], .seq [⟨0⟩]]) = .ok c q ∧
      q.label ⟨1⟩ = (run [.lit [97], .seq [⟨0⟩]]).label ⟨1⟩ ∧
        q.matchIn ⟨1⟩ #[122, 97] .full .search = some ⟨8, 8⟩ := by
  obtain ⟨c, q, hrun, -, hsame⟩ := run_canonicalize_pure [.lit [97], .seq [⟨0⟩]] ⟨1⟩ (by decide)
  obtain ⟨hlabel, -, hmatch⟩ := hsame (fun n _ => matcher?_eq_none_of_all (by decide) n) ⟨1⟩
    (by decide)
  refine ⟨c, q, hrun, hlabel, ?_⟩
  rw [hmatch]
  decide

/-- A range of digits is canonical, and has no matcher. Canonicalizing a digit pattern, which has
one for whole bytes, gives the matcher to the range too, and four bits into a byte this one no
longer matches. -/
theorem canonicalize_gives_matcher :
    let p := run [.range 48 57, .canonicalize ⟨0⟩, .digit]
    ∃ q, Edit.canonicalize ⟨1⟩ p = .ok ⟨0⟩ q ∧
      p.matchIn ⟨0⟩ #[3, 16] ⟨4, 12⟩ .anchored = some ⟨4, 8⟩ ∧
        q.matchIn ⟨0⟩ #[3, 16] ⟨4, 12⟩ .anchored = none := by
  refine ⟨_, rfl, ?_, ?_⟩
  · decide
  · decide

end Sigil.Pool
