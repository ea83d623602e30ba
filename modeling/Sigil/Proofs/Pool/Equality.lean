import Sigil.Proofs.Pool.Command

namespace Sigil

namespace Kind

variable {α γ : Type} {same : α → α → Bool} {f : α → γ}

theorem all_zip_iff {ss ts : List α} (hsame : ∀ s ∈ ss, ∀ t ∈ ts, (same s t = true ↔ f s = f t)) :
    (ss.length == ts.length && (ss.zip ts).all fun (s, t) => same s t) = true ↔
      ss.map f = ts.map f := by
  induction ss generalizing ts with
  | nil => cases ts <;> simp
  | cons s ss ih =>
    cases ts with
    | nil => simp
    | cons t ts =>
      have hhead := hsame s List.mem_cons_self t List.mem_cons_self
      have htail := ih fun s' hs t' ht => hsame s' (List.mem_cons_of_mem s hs) t'
        (List.mem_cons_of_mem t ht)
      rw [List.map_cons, List.map_cons, List.cons.injEq, ← hhead, ← htail]
      simp [and_left_comm]

/-- Where the comparison of sub-patterns tells whether their values are equal, that of layers tells
it of the layers of values. -/
theorem agrees_iff [DecidableEq α] {k l : Kind α}
    (hsame : ∀ s ∈ k.subs, ∀ t ∈ l.subs, (same s t = true ↔ f s = f t)) :
    k.agrees same l = true ↔ k.map f = l.map f := by
  cases k <;> cases l
  case alt.alt ss ts => exact (all_zip_iff hsame).trans ⟨congrArg alt, alt.inj⟩
  case seq.seq ss ts => exact (all_zip_iff hsame).trans ⟨congrArg seq, seq.inj⟩
  case rep.rep s r t q =>
    have hsub := hsame s (List.mem_singleton_self s) t (List.mem_singleton_self t)
    simp [agrees, map, hsub, and_comm]
  case ctx.ctx d s e t =>
    have hsub := hsame s (List.mem_singleton_self s) t (List.mem_singleton_self t)
    simp [agrees, map, hsub]
  -- layers without sub-patterns, or of two kinds
  all_goals simp [agrees, map, isTerminal]

end Kind

namespace Pool

variable {p : Pool} {id m n : PatternId}

theorem digest_eq_some (hid : p.contains id = true) : p.digest id = some (p.summary id).shape := by
  obtain ⟨node, hnode⟩ := Option.isSome_iff_exists.1 hid
  rw [digest, summary, hnode, Option.map_some, Option.map_some, Option.getD_some]

namespace WellFormed

/-- The structure that is kept for a pattern is its layer over those that are kept for its
sub-patterns. -/
theorem shape_eq (h : p.WellFormed) {node : Node} (hnode : p.get? id = some node) :
    node.summary.shape = .node () (node.kind.map fun s => (p.summary s).shape) := by
  have hsummary : p.summary id = node.summary := by
    rw [summary, hnode, Option.map_some, Option.getD_some]
  rw [← hsummary, h.settled id node.kind (kind?_of_get? hnode)]
  exact congrArg (Tree.node ()) (Kind.map_map p.summary (·.shape) node.kind)

/-- Of the comparison of digests it matters alone that equal structures pass it. -/
theorem structurallyEqWithin_iff (h : p.WellFormed) {sameDigest : Shape → Shape → Bool}
    (hdigest : ∀ s, sameDigest s s = true) (hm : p.contains m = true) (hn : p.contains n = true) :
    p.structurallyEqWithin sameDigest p.nodes.size m n = true ↔
      (p.summary m).shape = (p.summary n).shape := by
  refine h.fuel_induction (P := fun fuel m => ∀ n, p.contains m = true → p.contains n = true →
    (p.structurallyEqWithin sameDigest fuel m n = true ↔ (p.summary m).shape = (p.summary n).shape))
      ?_ hm n hm hn
  intro fuel m ih n hm hn
  obtain ⟨a, ha⟩ := Option.isSome_iff_exists.1 hm
  obtain ⟨b, hb⟩ := Option.isSome_iff_exists.1 hn
  have hlayers : a.kind.agrees (p.structurallyEqWithin sameDigest fuel) b.kind = true ↔
      a.summary.shape = b.summary.shape := by
    rw [h.shape_eq ha, h.shape_eq hb, Tree.node.injEq, and_iff_right rfl]
    refine Kind.agrees_iff fun s hs t ht => ih s ⟨_, kind?_of_get? ha, hs⟩ t ?_ ?_
    · exact h.contains_subs (kind?_of_get? ha) s hs
    · exact h.contains_subs (kind?_of_get? hb) t ht
  rw [structurallyEqWithin, ha, hb, Bool.or_eq_true, Bool.and_eq_true, beq_iff_eq, hlayers,
    summary, summary, ha, hb, Option.map_some, Option.map_some, Option.getD_some, Option.getD_some]
  constructor
  · rintro (rfl | ⟨-, hsame⟩)
    · rw [Option.some.inj (ha.symm.trans hb)]
    · exact hsame
  · -- equal structures have equal digests, so that no equality is cut short
    exact fun hsame => Or.inr ⟨hsame ▸ hdigest _, hsame⟩

theorem structurallyEq_iff_shape (h : p.WellFormed) (hm : p.contains m = true)
    (hn : p.contains n = true) :
    p.structurallyEq m n = true ↔ (p.summary m).shape = (p.summary n).shape :=
  h.structurallyEqWithin_iff (fun _ => h.discerning.sameDigest_iff.2 rfl) hm hn

end WellFormed

/-- In every pool with a history, two live patterns are structurally equal if and only if their
trees are equal but for the notes, and then they have the same digest. Nothing else comes out if
structures that differ have digests in common. -/
theorem run_structurallyEq_iff (cs : List Command) (a b : PatternId)
    (ha : (run cs).contains a = true) (hb : (run cs).contains b = true) :
    let p := run cs
    ∃ t u, p.tree? a = some t ∧ p.tree? b = some u ∧
      (p.structurallyEq a b = true ↔ t.shape = u.shape) ∧
      (p.structurallyEq a b = true → p.digest a = p.digest b) ∧
      ∀ (δ : Type) [DecidableEq δ] (digest : Shape → δ),
        (p.structurallyEqWithin (fun s t => decide (digest s = digest t)) p.nodes.size a b = true ↔
            t.shape = u.shape) ∧
          (t.shape = u.shape → (p.digest a).map digest = (p.digest b).map digest) := by
  intro p
  have hp : p.WellFormed := wellFormed_run cs
  obtain ⟨t, ht, hunfolds⟩ := hp.exists_tree ha
  obtain ⟨u, hu, hunfolds'⟩ := hp.exists_tree hb
  have hdigest : t.shape = u.shape → p.digest a = p.digest b := by
    intro hsame
    rw [digest_eq_some ha, digest_eq_some hb, ← hunfolds.shape, ← hunfolds'.shape, hsame]
  have hiff : p.structurallyEq a b = true ↔ t.shape = u.shape := by
    rw [hp.structurallyEq_iff_shape ha hb, hunfolds.shape, hunfolds'.shape]
  refine ⟨t, u, ht, hu, hiff, fun hsame => hdigest (hiff.1 hsame), fun δ _ digest =>
    ⟨?_, fun hsame => ?_⟩⟩
  · rw [hp.structurallyEqWithin_iff (fun _ => decide_eq_true rfl) ha hb, hunfolds.shape,
      hunfolds'.shape]
  · rw [hdigest hsame]

/-- Sequences over an alternation that was made at once and one that grew after the sequence was
there are equal. They differ from the alternation, also where all digests are the same. -/
theorem run_structurallyEq_grown :
    let p :=
      run [.lit [97], .alt [⟨0⟩], .seq [⟨1⟩, ⟨0⟩], .lit [97], .alt [], .seq [⟨4⟩, ⟨3⟩],
        .pushSub ⟨4⟩ ⟨3⟩]
    p.structurallyEq ⟨2⟩ ⟨5⟩ = true ∧ p.digest ⟨2⟩ = p.digest ⟨5⟩ ∧
      p.structurallyEqWithin (fun _ _ => decide (() = ())) p.nodes.size ⟨2⟩ ⟨1⟩ = false := by
  intro p
  have hsame : (p.tree? ⟨2⟩).map Tree.shape = (p.tree? ⟨5⟩).map Tree.shape := by decide
  have hother : (p.tree? ⟨2⟩).map Tree.shape ≠ (p.tree? ⟨1⟩).map Tree.shape := by decide
  obtain ⟨t, u, ht, hu, hiff, hdigest, -⟩ :=
    run_structurallyEq_iff _ ⟨2⟩ ⟨5⟩ (show p.contains ⟨2⟩ = true by decide)
    (show p.contains ⟨5⟩ = true by decide)
  obtain ⟨t', v, ht', hv, -, -, hcollide⟩ :=
    run_structurallyEq_iff _ ⟨2⟩ ⟨1⟩ (show p.contains ⟨2⟩ = true by decide)
    (show p.contains ⟨1⟩ = true by decide)
  rw [ht, hu, Option.map_some, Option.map_some, Option.some.injEq] at hsame
  rw [ht', hv, Option.map_some, Option.map_some, Ne, Option.some.injEq] at hother
  have heq : p.structurallyEq ⟨2⟩ ⟨5⟩ = true := hiff.2 hsame
  refine ⟨heq, hdigest heq, ?_⟩
  rw [← Bool.not_eq_true]
  exact mt (hcollide Unit fun _ => ()).1.1 hother

end Pool

end Sigil
