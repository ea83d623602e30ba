import Sigil.Proofs.Pool.Coherence
import Sigil.Proofs.Pool.Matching

namespace Sigil

namespace Pool

open Relation (ReflTransGen TransGen)

variable {p q r : Pool} {old new m n : PatternId} {ids : List PatternId}

theorem lead_congr (h : q.label = p.label) : q.lead = p.lead := by
  have hlabel : ∀ p : Pool, p.lead = fun n => ((p.label n).map (·.2.2.2)).getD 0 := by
    intro p
    funext n
    rw [lead, label]
    cases p.get? n <;> rfl
  rw [hlabel q, hlabel p, h]

/-- What is lost with the destroyed patterns says nothing about the others. -/
theorem Shrinks.meaning (h : p.Shrinks q) (hn : q.contains n = true) : q.meaning n = p.meaning n :=
  h.view (fun o => ((o.map Node.summary).getD .absent).shape.meaning) (fun _ _ => rfl) n hn

namespace Migrated

/-- A pattern that means the same can take the place of another one: then all patterns mean what
they meant. -/
theorem meaning (h : Migrated old new ids p q) (hp : p.WellFormed) (hq : q.WellFormed)
    (hsame : p.meaning new = p.meaning old) (hn : q.contains n = true) :
    q.meaning n = p.meaning n := by
  refine hq.induction (P := fun n => q.contains n = true → q.meaning n = p.meaning n) ?_ hn hn
  intro m ih hm
  obtain ⟨k, hk⟩ := kind?_isSome_iff.2 hm
  rw [hq.meaning_eq hk, Kind.map_congr fun s hs => ih s ⟨k, hk, hs⟩ (hq.contains_subs hk s hs)]
  rw [h.kind?] at hk
  split at hk
  case isTrue =>
    obtain ⟨k', hk', rfl⟩ := Option.map_eq_some_iff.1 hk
    rw [hp.meaning_eq hk', Kind.map_map]
    refine congrArg Kind.meaning (Kind.map_congr fun s _ => ?_)
    show p.meaning (if s = old then new else s) = p.meaning s
    split
    case isTrue hs => rw [hs, hsame]
    case isFalse => rfl
  case isFalse => exact (hp.meaning_eq hk).symm

/-- No path leads from the old pattern to those that embedded it, so that what is under it is left
alone. -/
theorem not_reaches (h : Migrated old new ids p q) (hp : p.WellFormed)
    (hids : ∀ s ∈ ids, p.Embeds s old) (hm : m ∈ ids) : ¬ ReflTransGen q.Embeds old m := by
  have hcycle : ∀ n, ReflTransGen p.Embeds old n → n ∉ ids := fun n hreach hn =>
    hp.acyclic old (TransGen.tail' hreach (hids n hn))
  have hback : ∀ n, ReflTransGen q.Embeds old n → ReflTransGen p.Embeds old n := by
    intro n hreach
    induction hreach with
    | refl => exact ReflTransGen.refl
    | tail _ hlast ih =>
      obtain ⟨k, hk, hmem⟩ := hlast
      rw [h.kind?, if_neg (hcycle _ ih)] at hk
      exact ih.tail ⟨k, hk, hmem⟩
  exact fun hreach => hcycle m (hback m hreach) hm

end Migrated

end Pool

namespace Edit

open Pool

variable {p shared : Pool} {id c : PatternId}

theorem mutatingCanonicalize_eq (hrun : canonicalize id p = .ok c shared)
    (hid : shared.contains id = true) :
    mutatingCanonicalize id p = .ok c (if c = id then shared else
      if shared.roots id = 0 ∧ shared.supers id ≠ [] then (shared.migrateSupers id c).destroy id
        else shared.migrateSupers id c) := by
  obtain ⟨node, hnode⟩ := Option.isSome_iff_exists.1 hid
  have hroots : shared.roots id = node.roots := by
    rw [roots, hnode, Option.map_some, Option.getD_some]
  unfold mutatingCanonicalize
  show EStateM.bind (canonicalize id) _ p = _
  rw [EStateM.bind, hrun]
  dsimp only
  split
  case isTrue hc =>
    rw [hc]
    rfl
  case isFalse =>
    rw [hroots, supers_of_get? hnode]
    exact node_bind_eq hnode _

end Edit

namespace Pool

/-- A byte cut out of two others is taken for the first of these, so that what embeds it loses its
matches. -/
theorem mutatingCanonicalize_byte_inside_bytes :
    let p := run [.literal (.ofBytes [97]) 4, .lit [7], .alt [⟨0⟩, ⟨1⟩], .alt [⟨2⟩]]
    ∃ c q, Edit.mutatingCanonicalize ⟨2⟩ p = .ok c q ∧
      p.matchIn ⟨3⟩ #[97] .full .anchored = some ⟨0, 8⟩ ∧
      q.matchIn ⟨3⟩ #[97] .full .anchored = none :=
  ⟨_, _, rfl, by decide, by decide⟩

end Pool

end Sigil
