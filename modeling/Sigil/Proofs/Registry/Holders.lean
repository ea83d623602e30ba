import Sigil.Proofs.Pool.Command
import Sigil.Proofs.Success
import Sigil.Registry

namespace Sigil

def Slot.Admits : Slot → Domain → Prop
  | .name, d => d.IsName
  | .content, d => d = .fileContents

namespace Command

/-- Clients let go of what they hold alone. -/
def Fair (held : PatternId → Nat) : Command → Prop
  | release id => 0 < held id
  | _ => True

def heldAfter (p : Pool) (held : PatternId → Nat) : Command → PatternId → Nat
  | retain id, n => if n = id ∧ p.contains id then held n + 1 else held n
  | release id, n => if n = id then held n - 1 else held n
  | _, n => held n

end Command

namespace Pool

open Relation (TransGen)

variable {p q r : Pool} {id c n : PatternId} {slot : Slot} {refs refs' : List (Slot × PatternId)}
  {held : PatternId → Nat}

/-- The holders of the patterns of `p` are the slots with their references, and clients. -/
structure Holds (p : Pool) (refs : List (Slot × PatternId)) (held : PatternId → Nat) : Prop where
  wellFormed : p.WellFormed
  roots : ∀ n, p.roots n = (refs.map (·.2)).count n + held n
  tagged : ∀ ref ∈ refs, ∃ d, p.domain? ref.2 = some d ∧ ref.1.Admits d

namespace Holds

theorem roots_pos (h : p.Holds refs held) (href : (slot, id) ∈ refs) : 0 < p.roots id := by
  have hcount : 0 < (refs.map (·.2)).count id := List.count_pos_iff.2 (List.mem_map_of_mem href)
  rw [h.roots]
  omega

theorem contains (h : p.Holds refs held) (href : (slot, id) ∈ refs) : p.contains id = true :=
  contains_of_roots_pos (h.roots_pos href)

theorem perm (h : p.Holds refs held) (hrefs : refs.Perm refs') : p.Holds refs' held where
  wellFormed := h.wellFormed
  roots n := by rw [h.roots, (hrefs.map (·.2)).count_eq]
  tagged ref href := h.tagged ref (hrefs.mem_iff.2 href)

theorem keeps (h : p.Holds refs held) (hq : p.Keeps q) : q.Holds refs held where
  wellFormed := hq.wellFormed
  roots n := by rw [hq.roots, h.roots]
  tagged ref href := by
    obtain ⟨d, hd, hadmits⟩ := h.tagged ref href
    exact ⟨d, hq.domain? hd, hadmits⟩

/-- What a slot holds could as well be held by a client. -/
theorem cons_iff :
    p.Holds ((slot, id) :: refs) held ↔ (∃ d, p.domain? id = some d ∧ slot.Admits d) ∧
      p.Holds refs fun n => if n = id then held n + 1 else held n := by
  have hcount : ∀ n, (((slot, id) :: refs).map (·.2)).count n + held n =
      (refs.map (·.2)).count n + if n = id then held n + 1 else held n := by
    intro n
    rw [List.map_cons, List.count_cons]
    simp only [beq_iff_eq, eq_comm (a := id)]
    split <;> omega
  constructor
  · intro h
    refine ⟨h.tagged _ List.mem_cons_self, h.wellFormed, fun n => (h.roots n).trans (hcount n), ?_⟩
    exact fun ref href => h.tagged ref (List.mem_cons_of_mem _ href)
  · rintro ⟨htag, h⟩
    refine ⟨h.wellFormed, fun n => (h.roots n).trans (hcount n).symm, ?_⟩
    intro ref href
    rcases List.mem_cons.1 href with rfl | href
    · exact htag
    · exact h.tagged ref href

/-- The holders that a command of a fair client leaves are those other than clients, and what
clients hold then. -/
theorem holders_eq (h : p.Holds refs held) {c : Command} (hc : c.Fair held) (n : PatternId) :
    (if p.contains n then c.holders p n else 0) =
      (refs.map (·.2)).count n + c.heldAfter p held n := by
  have hroots := h.roots n
  have hdead : p.contains n = false → p.roots n = 0 := roots_eq_zero
  have hother : (if p.contains n then p.roots n else 0) = (refs.map (·.2)).count n + held n := by
    cases hn : p.contains n with
    | true => exact hroots
    | false => exact (hdead hn).symm.trans hroots
  cases c with
  | retain id =>
    by_cases hid : n = id
    · subst hid
      cases hn : p.contains n with
      | true =>
        simp only [Command.holders, Command.heldAfter, hn, if_true, true_and, hroots, add_assoc]
      | false => simpa [Command.heldAfter, hn] using hother
    · simpa only [Command.holders, Command.heldAfter, if_neg hid, if_neg (not_and.2 fun h =>
        absurd h hid)] using hother
  | release id =>
    by_cases hid : n = id
    · subst hid
      -- what a client lets go of is alive, since the client held it
      have hheld : 0 < held n := hc
      have hn : p.contains n = true := contains_of_roots_pos (by omega)
      simp only [Command.holders, Command.heldAfter, hn, if_true, hroots]
      omega
    · simpa only [Command.holders, Command.heldAfter, if_neg hid] using hother
  | _ => exact hother

/-- A command of a fair client leaves the references of the slots alone. -/
theorem command (h : p.Holds refs held) {c : Command} (hc : c.Fair held) :
    (c.apply p).Holds refs (c.heldAfter p held) := by
  have hobeys := h.wellFormed.obeys c
  have hroots : ∀ n, (c.apply p).roots n = (refs.map (·.2)).count n + c.heldAfter p held n :=
    fun n => (hobeys.roots n).trans (h.holders_eq hc n)
  refine ⟨hobeys.wellFormed, hroots, ?_⟩
  rintro ⟨slot, n⟩ href
  obtain ⟨d, hd, hadmits⟩ := h.tagged _ href
  have hcount : 0 < (refs.map (·.2)).count n := List.count_pos_iff.2 (List.mem_map_of_mem href)
  have hlive : (c.apply p).contains n = true := contains_of_roots_pos (by rw [hroots]; omega)
  exact ⟨d, hobeys.domain? hlive hd, hadmits⟩

end Holds

/-! ## What edits leave alone -/

/-- What is alive in both pools means the same in them. There it stays canonical, and a context of
its domain. -/
structure Resembles (p q : Pool) : Prop where
  meaning : ∀ n, p.contains n = true → q.contains n = true → q.meaning n = p.meaning n
  isCanonical : ∀ n, p.isCanonical n = true → q.contains n = true → q.isCanonical n = true
  domain? : ∀ n d, p.domain? n = some d → q.contains n = true → q.domain? n = some d
  matcher? : (∀ n, p.matcher? n = none) → ∀ n, q.matcher? n = none
  aligned : p.Aligned → q.Aligned

namespace Resembles

theorem refl (p : Pool) : p.Resembles p where
  meaning _ _ _ := rfl
  isCanonical _ hn _ := hn
  domain? _ _ hd _ := hd
  matcher? hp := hp
  aligned hp := hp

/-- What is alive at both ends has to be alive in between. -/
theorem trans (h : p.Resembles q) (h' : q.Resembles r)
    (hlive : ∀ n, p.contains n = true → r.contains n = true → q.contains n = true) :
    p.Resembles r where
  meaning n hn hr := (h'.meaning n (hlive n hn hr) hr).trans (h.meaning n hn (hlive n hn hr))
  isCanonical n hn hr :=
    h'.isCanonical n (h.isCanonical n hn (hlive n (contains_of_isCanonical hn) hr)) hr
  domain? n d hd hr := by
    obtain ⟨s, hs⟩ := domain?_eq_some.1 hd
    exact h'.domain? n d (h.domain? n d hd (hlive n (kind?_isSome_iff.1 ⟨_, hs⟩) hr)) hr
  matcher? hp := h'.matcher? (h.matcher? hp)
  aligned hp := h'.aligned (h.aligned hp)

end Resembles

/-- A pattern that stands for another one does so as long as it lives. -/
theorem Stands.resembles (h : Stands p q id c) (hr : q.Resembles r) (hc : r.contains c = true) :
    Stands p r id c where
  canonical := hr.isCanonical c h.canonical hc
  meaning haligned := (hr.meaning c (contains_of_isCanonical h.canonical) hc).trans
    (h.meaning haligned)
  domain? d hd := hr.domain? c d (h.domain? d hd) hc

theorem Extends.resembles (h : p.Extends q) : p.Resembles q where
  meaning _ hn _ := h.meaning hn
  isCanonical n hn _ := h.isCanonical n hn
  domain? _ _ hd _ := h.domain? hd
  matcher? := h.matcher?
  aligned := h.aligned

theorem Shrinks.resembles (h : p.Shrinks q) : p.Resembles q where
  meaning n _ hn := h.view (fun o => ((o.map Node.summary).getD .absent).shape.meaning) (fun _ _ =>
    rfl) n hn
  isCanonical n hn hq := (h.view (Option.any (·.canonical)) (fun _ _ => rfl) n hq).trans hn
  domain? n d hd hn := (h.domain? hn).trans hd
  matcher? hp n := by
    cases hn : q.get? n with
    | none =>
      rw [Pool.matcher?, hn]
      rfl
    | some node => rw [h.matcher? (contains_of_get? hn), hp]
  aligned := h.aligned

theorem resembles_modify {f : Node → Node} (hf : KeepsPlace f)
    (hmatcher : ∀ node, (f node).matcher = node.matcher) (p : Pool) (id : PatternId) :
    p.Resembles (p.modify id f) where
  meaning n _ _ := by rw [meaning, summary_modify hf.summary, meaning]
  isCanonical n hn _ := by rwa [isCanonical_modify hf.canonical]
  domain? n d hd _ := by rwa [domain?_congr (kind?_modify hf.kind)]
  matcher? hp := matcher?_modify_eq_none (fun node hnode => (hmatcher node).trans hnode) hp
  aligned hp := hp.congr (lead_modify hf.lead)

end Pool

/-! ## Edits on behalf of a slot -/

namespace Edit

open Pool

variable {α : Type} {p q : Pool} {id : PatternId} {d : Domain} {slot : Slot}
  {refs : List (Slot × PatternId)} {held : PatternId → Nat}

theorem succeeds_node (hid : p.contains id = true) :
    Succeeds (Edit.node id) p fun node q => q = p ∧ p.get? id = some node := by
  obtain ⟨node, hnode⟩ := Option.isSome_iff_exists.1 hid
  exact Succeeds.of_eq (by rw [Edit.node, hnode]) ⟨rfl, hnode⟩

theorem after_of_eq_ok {e : Edit α} {a : α} (h : e p = .ok a q) : e.after p = q := by
  rw [after, h]

/-- A live pattern can always be made a context. -/
theorem succeeds_ctx (hp : p.WellFormed) (hid : p.contains id = true) (d : Domain) :
    Succeeds (ctx d id) p fun c q => p.Keeps q ∧ q.domain? c = some d := by
  have hkeeps := (growing_ctx id d).keeping p hp
  obtain ⟨hself, hrun⟩ | ⟨-, ⟨c, hc, hrun⟩ | ⟨-, hrun⟩⟩ := ctx_cases id hp hid d
  · rw [after_of_eq_ok hrun] at hkeeps
    exact ⟨id, p, hrun, hkeeps, hself⟩
  · rw [after_of_eq_ok hrun] at hkeeps
    exact ⟨c, p, hrun, hkeeps, domain?_eq_some.2 ⟨id, hc⟩⟩
  · rw [after_of_eq_ok hrun] at hkeeps
    exact ⟨p.fresh, _, hrun, hkeeps, domain?_eq_some.2 ⟨id, by rw [kind?_add, if_pos rfl]⟩⟩

/-- A live pattern can always be made a context of names, if it is none. -/
theorem succeeds_nameContext (hp : p.WellFormed) (hid : p.contains id = true) :
    Succeeds (Registry.nameContext id) p fun c q => p.Keeps q ∧ ∃ d, q.domain? c = some d ∧
      d.IsName := by
  have hfile : Succeeds (ctx .fileName id) p fun c q => p.Keeps q ∧ ∃ d, q.domain? c = some d ∧
      d.IsName :=
    (succeeds_ctx hp hid .fileName).mono fun c q hq => ⟨hq.1, .fileName, hq.2, Or.inr (Or.inl rfl)⟩
  refine (succeeds_node hid).bind ?_
  rintro node q ⟨rfl, hnode⟩
  split
  case h_1 d s hkind =>
    split
    case isTrue hname =>
      refine Succeeds.pure ⟨Keeps.refl hp, d, domain?_eq_some.2 ⟨s, ?_⟩, hname⟩
      rw [kind?_of_get? hnode, hkind]
    case isFalse => exact hfile
  case h_2 => exact hfile

/-- A slot takes hold of a pattern. -/
theorem succeeds_retain (h : p.Holds refs held) (hd : p.domain? id = some d)
    (hadmits : slot.Admits d) :
    Succeeds (retain id) p fun _ q =>
      q.Holds ((slot, id) :: refs) held ∧ p.Resembles q ∧ q.contains = p.contains := by
  have hid : p.contains id = true := by
    obtain ⟨s, hs⟩ := domain?_eq_some.1 hd
    exact kind?_isSome_iff.1 ⟨_, hs⟩
  have hplace : KeepsPlace fun n => { n with roots := n.roots + 1 } :=
    ⟨fun _ => rfl, fun _ => rfl, fun _ => rfl, fun _ => rfl, fun _ => rfl⟩
  have hrun : Succeeds (retain id) p fun _ q => q = p.modify id fun n =>
      { n with roots := n.roots + 1 } := by
    refine (succeeds_node hid).bind ?_
    rintro node q ⟨rfl, -⟩
    exact Succeeds.modify rfl
  obtain ⟨_, q, hrun, rfl⟩ := hrun
  have hheld : Command.heldAfter p held (.retain id) =
      fun n => if n = id then held n + 1 else held n := by
    funext n
    simp only [Command.heldAfter, hid, and_true]
  have hholds := h.command (c := .retain id) trivial
  rw [Command.apply, after_of_eq_ok hrun, hheld] at hholds
  refine Succeeds.of_eq hrun ⟨Holds.cons_iff.2 ⟨⟨d, ?_, hadmits⟩, hholds⟩,
    resembles_modify hplace (fun _ => rfl) p id, contains_congr (kind?_modify hplace.kind)⟩
  rwa [domain?_congr (kind?_modify hplace.kind)]

/-- A slot lets go of a pattern. -/
theorem succeeds_release (h : p.Holds ((slot, id) :: refs) held) :
    Succeeds (release id) p fun _ q =>
      q.Holds refs held ∧ p.Resembles q ∧ ∀ n, q.contains n = true → p.contains n = true := by
  have hpos : 0 < p.roots id := h.roots_pos List.mem_cons_self
  have hid : p.contains id = true := contains_of_roots_pos hpos
  have hplace : KeepsPlace fun n => { n with roots := n.roots - 1 } :=
    ⟨fun _ => rfl, fun _ => rfl, fun _ => rfl, fun _ => rfl, fun _ => rfl⟩
  have hrun : Succeeds (release id) p fun _ q =>
      (p.modify id fun n => { n with roots := n.roots - 1 }).Shrinks q := by
    refine (succeeds_node hid).bind ?_
    rintro node q ⟨rfl, hnode⟩
    have hne : node.roots ≠ 0 := by
      rw [roots, hnode] at hpos
      exact Nat.ne_of_gt hpos
    rw [if_neg hne]
    refine Succeeds.modify ?_
    have hreleased := h.wellFormed.modify hplace id
    dsimp only
    split
    case isTrue horphan => exact hreleased.shrinks_destroy fun _ => (isOrphan_iff.1 horphan).2
    case isFalse => exact Shrinks.refl hreleased
  obtain ⟨_, q, hrun, hshrinks⟩ := hrun
  have hlive : ∀ n, q.contains n = true → p.contains n = true := by
    intro n hn
    have hsame : (p.modify id fun n => { n with roots := n.roots - 1 }).contains = p.contains :=
      contains_congr (kind?_modify hplace.kind)
    rw [← hsame]
    exact hshrinks.contains hn
  have hfair : Command.Fair (fun n => if n = id then held n + 1 else held n) (.release id) := by
    show 0 < if id = id then held id + 1 else held id
    rw [if_pos rfl]
    exact Nat.succ_pos _
  have hheld : Command.heldAfter p (fun n => if n = id then held n + 1 else held n)
      (.release id) = held := by
    funext n
    rw [Command.heldAfter]
    split <;> simp_all
  have hholds := (Holds.cons_iff.1 h).2.command hfair
  rw [Command.apply, after_of_eq_ok hrun, hheld] at hholds
  refine Succeeds.of_eq hrun ⟨hholds,
    (resembles_modify hplace (fun _ => rfl) p id).trans hshrinks.resembles ?_, hlive⟩
  intro n hn _
  rwa [contains_congr (kind?_modify hplace.kind)]

/-- A slot adopts any live pattern, as a context that it admits. -/
theorem succeeds_adopt (h : p.Holds refs held) (hid : p.contains id = true) (slot : Slot) :
    Succeeds (Registry.adopt slot id) p fun c q =>
      q.Holds ((slot, c) :: refs) held ∧ ∀ n, p.contains n = true → q.contains n = true := by
  have hretain : ∀ c q, (p.Keeps q ∧ ∃ d, q.domain? c = some d ∧ slot.Admits d) →
      Succeeds (do retain c; return c : Edit PatternId) q fun c q =>
        q.Holds ((slot, c) :: refs) held ∧ ∀ n, p.contains n = true → q.contains n = true := by
    rintro c q ⟨hkeeps, d, hd, hadmits⟩
    refine (succeeds_retain (h.keeps hkeeps) hd hadmits).bind ?_
    rintro _ r ⟨hholds, -, hcontains⟩
    exact Succeeds.pure ⟨hholds, fun n hn => by rw [hcontains, hkeeps.contains n hn]⟩
  cases slot with
  | name => exact (succeeds_nameContext h.wellFormed hid).bind hretain
  | content =>
    refine (succeeds_ctx h.wellFormed hid .fileContents).bind fun c q hq => ?_
    exact hretain c q ⟨hq.1, _, hq.2, rfl⟩

/-- What a slot refers to has a canonical pattern. If it is canonical itself, nothing happens. -/
theorem succeeds_canonicalize (h : p.Holds ((slot, id) :: refs) held) :
    Succeeds (canonicalize id) p fun c q =>
      q.Holds ((slot, id) :: refs) held ∧ p.Extends q ∧ Stands p q id c ∧
        (p.isCanonical id = true → c = id ∧ q = p) := by
  obtain ⟨c, q, hrun, hrefines, hcanonical, hmeaning, -⟩ :=
    canonicalize_spec h.wellFormed (h.contains List.mem_cons_self)
  refine Succeeds.of_eq hrun ⟨h.keeps hrefines.keeps, hrefines.toExtends,
    ⟨hcanonical, hmeaning, fun d hd => domain?_canonicalize h.wellFormed hd hrun⟩, fun hid => ?_⟩
  rw [canonicalize_of_canonical hid] at hrun
  injection hrun with hc hq
  exact ⟨hc.symm, hq.symm⟩

end Edit

end Sigil
