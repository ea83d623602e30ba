import Sigil.Matcher
import Sigil.Pool.Build
import Sigil.Proofs.Pool.Interning
import Sigil.Proofs.Pool.Rewiring

namespace Sigil

namespace Pool

open Relation (ReflTransGen)

variable {p q r : Pool} {id s n : PatternId} {k : Kind PatternId} {pushed : Option PatternId}

/-- `q` is well formed, and all patterns of `p` live in it, held as often and embedding at least
what they did. A context stays one of the same domain, and nothing else becomes one. -/
structure Keeps (p q : Pool) : Prop where
  wellFormed : q.WellFormed
  ages : p.Ages q
  contains : ∀ n, p.contains n = true → q.contains n = true
  roots : q.roots = p.roots
  embeds : ∀ m n, p.Embeds m n → q.Embeds m n
  domain_eq : ∀ n, p.contains n = true → q.domain? n = p.domain? n

namespace Keeps

theorem refl (h : p.WellFormed) : p.Keeps p where
  wellFormed := h
  ages := (Extends.refl p).ages
  contains _ hn := hn
  roots := rfl
  embeds _ _ hmn := hmn
  domain_eq _ _ := rfl

theorem trans (h : p.Keeps q) (h' : q.Keeps r) : p.Keeps r where
  wellFormed := h'.wellFormed
  ages := h.ages.trans h'.ages
  contains n hn := h'.contains n (h.contains n hn)
  roots := h'.roots.trans h.roots
  embeds m n hmn := h'.embeds m n (h.embeds m n hmn)
  domain_eq n hn := (h'.domain_eq n (h.contains n hn)).trans (h.domain_eq n hn)

theorem domain? (h : p.Keeps q) {d : Domain} (hd : p.domain? n = some d) : q.domain? n = some d :=
  (h.domain_eq n (contains_of_domain? hd)).trans hd

end Keeps

theorem Extends.keeps (h : p.Extends q) (hq : q.WellFormed) : p.Keeps q where
  wellFormed := hq
  ages := h.ages
  contains _ hn := h.contains hn
  roots := funext h.roots
  embeds _ _ hmn := h.embeds hmn
  domain_eq _ hn := h.domain_eq hn

theorem Refines.keeps {appointed : PatternId → Prop} (h : Refines appointed p q) : p.Keeps q :=
  h.toExtends.keeps h.wellFormed

theorem WellFormed.keeps_add (h : p.WellFormed) (hk : k.Valid)
    (hsubs : ∀ s ∈ k.subs, p.contains s = true) (lead : Fin 8) : p.Keeps (p.add k lead).2 where
  wellFormed := h.add hk hsubs
  ages := ages_add p k lead
  contains n hn := (contains_add n).2 (Or.inr hn)
  roots := funext (roots_add p k)
  embeds m n hmn := embeds_add.2 (Or.inl hmn)
  domain_eq n hn := by
    rw [Pool.domain?, kind?_add, if_neg (ne_fresh_of_contains hn), Pool.domain?]

theorem WellFormed.keeps_modify (h : p.WellFormed) {f : Node → Node} (hf : KeepsPlace f)
    (hroots : ∀ node, (f node).roots = node.roots) (id : PatternId) : p.Keeps (p.modify id f) where
  wellFormed := h.modify hf id
  ages := Ages.of_contains (size_modify ..).ge fun n hn => by
    rwa [contains_congr (kind?_modify hf.kind)] at hn
  contains n hn := by rwa [contains_congr (kind?_modify hf.kind)]
  roots := roots_modify hroots
  embeds m n hmn := by rwa [embeds_congr (kind?_modify hf.kind)]
  domain_eq n _ := by rw [domain?_congr (kind?_modify hf.kind)]

theorem WellFormed.keeps_append (h : p.WellFormed) (hk : p.kind? s = some k)
    (hmulti : k.isMulti = true) (hn : p.contains n = true) (hno : p.reaches n s = false) :
    p.Keeps ((p.appended s n).refresh s) := by
  have hs : p.contains s = true := kind?_isSome_iff.1 ⟨k, hk⟩
  have hacyclic := h.not_reaches hn hno
  have hrewired := h.rewired_appended hk hmulti hn hacyclic
  have hmends := hrewired.mends h hs
  exact {
    wellFormed := h.append hk hmulti hn hacyclic
    ages := Ages.of_contains (hmends.size.trans hrewired.size).ge fun m hm => by
      rwa [contains_congr hmends.kind?, hrewired.contains hs] at hm
    contains := by
      intro m hm
      rwa [contains_congr hmends.kind?, hrewired.contains hs]
    roots := hmends.roots.trans hrewired.roots
    embeds := by
      intro m m' hmm'
      rw [embeds_congr hmends.kind?]
      by_cases hms : m = s
      · rw [hms, embeds_iff hk] at hmm'
        -- what the node embeds already stays before the new sub-pattern
        refine ⟨k.push n, by rw [hrewired.kind?, if_pos hms], ?_⟩
        exact (Kind.mem_subs_push hmulti n m').2 (Or.inl hmm')
      · exact (hrewired.embeds_of_ne hms).2 hmm'
    domain_eq := by
      intro m _
      rw [domain?_congr hmends.kind?, Pool.domain?, hrewired.kind?, Pool.domain?]
      split
      case isTrue hms =>
        -- neither an alternation nor a sequence is a context
        rw [hms, hk, Option.bind_some, Option.bind_some, Kind.domain?_push]
      case isFalse => rfl }

/-- The steps of constructors and setters: a node is added, unless it is a context that there is
already; a node is changed, but for its place in the pool and its holders; a sub-pattern is appended
to the pattern `pushed`. -/
inductive Grows (pushed : Option PatternId) : Pool → Pool → Prop where
  | add {p : Pool} {k : Kind PatternId} (hk : k.Valid) (hsubs : ∀ s ∈ k.subs, p.contains s = true)
    (hnew : ∀ d s, k = .ctx d s → ∀ n, p.kind? n ≠ some (.ctx d s)) {lead : Fin 8} :
    Grows pushed p (p.add k lead).2
  | modify {p : Pool} {f : Node → Node} (hf : KeepsPlace f) (hroots : ∀ node,
    (f node).roots = node.roots)
    (id : PatternId) : Grows pushed p (p.modify id f)
  | append {p : Pool} {s n : PatternId} {k : Kind PatternId} (hs : pushed = some s)
    (hk : p.kind? s = some k)
    (hmulti : k.isMulti = true) (hn : p.contains n = true) (hno : p.reaches n s = false) :
    Grows pushed p ((p.appended s n).refresh s)

theorem Grows.keeps (h : Grows pushed p q) (hp : p.WellFormed) : p.Keeps q := by
  cases h with
  | add hk hsubs _ => exact hp.keeps_add hk hsubs _
  | modify hf hroots id => exact hp.keeps_modify hf hroots id
  | append _ hk hmulti hn hno => exact hp.keeps_append hk hmulti hn hno

theorem keeps_of_grows (h : ReflTransGen (Grows pushed) p q) (hp : p.WellFormed) : p.Keeps q := by
  induction h with
  | refl => exact Keeps.refl hp
  | tail _ hlast ih => exact ih.trans (hlast.keeps ih.wellFormed)

end Pool

namespace Edit

open Relation (ReflTransGen)

variable {α β : Type} {p : Pool} {pushed : Option PatternId}

def after (e : Edit α) (p : Pool) : Pool :=
  match e p with
  | .ok _ q => q
  | .error _ q => q

theorem after_bind (e : Edit α) (f : α → Edit β) (p : Pool) :
    (e >>= f).after p = match e p with
      | .ok a q => (f a).after q
      | .error _ q => q := by
  show (match EStateM.bind e f p with
    | .ok _ q => q
    | .error _ q => q) = _
  unfold EStateM.bind
  cases e p <;> rfl

theorem insert_eq_ok {k : Kind PatternId} {lead : Fin 8}
    (hsubs : ∀ s ∈ k.subs, p.contains s = true) :
    insert k lead p = .ok p.fresh (p.add k lead).2 := by
  have hfind : k.subs.find? (fun sub => !p.contains sub) = none := by
    rw [List.find?_eq_none]
    intro s hs
    simp [hsubs s hs]
  rw [insert, hfind]
  rfl

/-- A live pattern is looked up, and the edit goes on with what there is about it. -/
theorem node_bind_eq {id : PatternId} {node : Node} (hnode : p.get? id = some node)
    (f : Node → Edit α) : (Edit.node id >>= f) p = f node p := by
  show EStateM.bind (Edit.node id) f p = _
  rw [EStateM.bind, Edit.node, hnode]

theorem range_eq_insert {lo hi : UInt8} (h : lo ≤ hi) : range lo hi = insert (.range lo hi) := by
  unfold range
  rw [if_neg (UInt8.not_lt.2 h)]

theorem lit_eq_insert {bytes : List UInt8} (h : bytes ≠ []) :
    lit bytes = insert (.lit (.ofBytes bytes)) := by
  have hplain : (Literal.ofBytes bytes).IsPlain := ⟨rfl, rfl⟩
  unfold lit literal
  rw [if_neg (Literal.not_isEmpty_ofBytes h), if_neg fun hflags => hflags.1 hplain]

def Keeping (e : Edit α) : Prop := ∀ p : Pool, p.WellFormed → p.Keeps (e.after p)

def Growing (pushed : Option PatternId) (e : Edit α) : Prop :=
  ∀ p : Pool, p.WellFormed → ReflTransGen (Pool.Grows pushed) p (e.after p)

theorem Growing.keeping {e : Edit α} (h : Growing pushed e) : Keeping e :=
  fun p hp => Pool.keeps_of_grows (h p hp) hp

namespace Growing

theorem pure (a : α) : Growing pushed (Pure.pure a) := fun _ _ => ReflTransGen.refl

theorem throw (error : PatternError) : Growing pushed (throw error : Edit α) :=
  fun _ _ => ReflTransGen.refl

theorem node (id : PatternId) : Growing pushed (Edit.node id) := by
  intro p _
  unfold after Edit.node
  cases p.get? id <;> exact ReflTransGen.refl

theorem bind {e : Edit α} {f : α → Edit β} (he : Growing pushed e)
    (hf : ∀ a, Growing pushed (f a)) : Growing pushed (e >>= f) := by
  intro p hp
  have hfirst := he p hp
  have hwf := (he.keeping p hp).wellFormed
  rw [after_bind]
  unfold after at hfirst hwf
  cases hrun : e p with
  | ok a q =>
    rw [hrun] at hfirst hwf
    exact hfirst.trans (hf a q hwf)
  | error _ q =>
    rw [hrun] at hfirst
    exact hfirst

/-- A check that may fail before the rest of an edit. -/
theorem check {c : Prop} [Decidable c] {error : PatternError} {rest : Edit α}
    (h : ¬ c → Growing pushed rest) :
    Growing pushed (if c then do let _ : PUnit ← MonadExcept.throw error; rest else rest) := by
  split
  case isTrue => exact fun _ _ => ReflTransGen.refl
  case isFalse hc => exact h hc

theorem after_insert {k : Kind PatternId} (hk : k.Valid)
    (hnew : ∀ d s, k = .ctx d s → ∀ n, p.kind? n ≠ some (.ctx d s)) {lead : Fin 8} :
    ReflTransGen (Pool.Grows pushed) p ((Edit.insert k lead).after p) := by
  unfold after Edit.insert
  cases hfind : k.subs.find? (fun sub => !p.contains sub) with
  | some sub => exact ReflTransGen.refl
  | none =>
    have hsubs : ∀ s ∈ k.subs, p.contains s = true := by
      intro s hs
      simpa using List.find?_eq_none.1 hfind s hs
    exact ReflTransGen.single (.add hk hsubs hnew)

theorem insert {k : Kind PatternId} {lead : Fin 8} (hk : k.Valid) (hnone : k.domain? = none) :
    Growing pushed (Edit.insert k lead) := by
  intro p _
  refine after_insert hk ?_
  rintro d s rfl
  exact nomatch hnone

theorem annotate (id : PatternId) {f : Node → Node} (hf : Pool.KeepsPlace f)
    (hroots : ∀ node, (f node).roots = node.roots) : Growing pushed (Edit.annotate id f) :=
  (node id).bind fun _ _ _ => ReflTransGen.single (.modify hf hroots id)

end Growing

/-! ## Constructors -/

section Constructors

variable (id : PatternId) (bytes : List UInt8)

theorem growing_literal (l : Literal) (lead : Fin 8 := 0) : Growing none (literal l lead) := by
  unfold literal
  refine Growing.check fun hlength => Growing.check fun hflags => Growing.insert ⟨hlength, ?_⟩ rfl
  by_contra hneither
  rw [not_or] at hneither
  exact hflags ⟨hneither.1, if_neg hneither.2⟩

theorem growing_lit : Growing none (lit bytes) := growing_literal _

theorem growing_litNocase : Growing none (litNocase bytes) := growing_literal _

theorem growing_any (bits : Nat) : Growing none (any bits) := by
  unfold any
  exact Growing.check fun hbits => Growing.insert (Nat.pos_of_ne_zero hbits) rfl

theorem growing_range (lo hi : UInt8) : Growing none (range lo hi) := by
  unfold range
  exact Growing.check fun hle => Growing.insert (UInt8.not_lt.1 hle) rfl

theorem growing_anchor (a : Anchor) : Growing none (anchor a) := Growing.insert trivial rfl

theorem growing_alt (subs : List PatternId) : Growing none (alt subs) := Growing.insert trivial rfl

theorem growing_seq (subs : List PatternId) : Growing none (seq subs) := Growing.insert trivial rfl

theorem growing_rep (counts : Repeat) : Growing none (rep id counts) := by
  unfold rep
  split
  case h_1 max hmax =>
    split
    case isTrue => exact Growing.throw _
    case isFalse hle =>
      refine Growing.insert (fun m hm => ?_) rfl
      rw [hmax, Option.mem_some_iff] at hm
      omega
  case h_2 hmax =>
    refine Growing.insert (fun m hm => ?_) rfl
    exact absurd hm (hmax m)

theorem ctx_eq (domain : Domain) (p : Pool) : ctx domain id p =
    match p.get? id with
    | none => .error (.unknownPattern id) p
    | some node =>
      if node.kind.domain? = some domain then .ok id p
      else match node.supers.find? fun s => (p.get? s).any (·.kind == .ctx domain id) with
        | some existing => .ok existing p
        | none => insert (.ctx domain id) 0 p := by
  show EStateM.bind (Edit.node id) _ p = _
  rw [EStateM.bind, Edit.node]
  cases hnode : p.get? id with
  | none => rfl
  | some node =>
    dsimp only
    -- what is done unless the pattern is a context of the domain itself
    have hrest : (do
        let p ← MonadState.get
        match node.supers.find? (fun s => (p.get? s).any (·.kind == .ctx domain id)) with
        | some existing => return existing
        | none => insert (.ctx domain id) : Edit PatternId) p =
        match node.supers.find? fun s => (p.get? s).any (·.kind == .ctx domain id) with
        | some existing => .ok existing p
        | none => insert (.ctx domain id) 0 p := by
      show (match node.supers.find? (fun s => (p.get? s).any (·.kind == .ctx domain id)) with
        | some existing => Pure.pure existing
        | none => insert (.ctx domain id) : Edit PatternId) p = _
      cases node.supers.find? fun s => (p.get? s).any (·.kind == .ctx domain id) <;> rfl
    cases hkind : node.kind with
    | ctx d sub =>
      simp only [Kind.domain?, Option.some.injEq]
      split
      case isTrue => rfl
      case isFalse => exact hrest
    | _ => exact hrest

/-- The ways in which a context comes about: the pattern is one itself, there is one already, or it
is made. -/
theorem ctx_cases (hp : p.WellFormed) (hid : p.contains id = true) (domain : Domain) :
    p.domain? id = some domain ∧ ctx domain id p = .ok id p ∨
      p.domain? id ≠ some domain ∧
        ((∃ c, p.kind? c = some (.ctx domain id) ∧ ctx domain id p = .ok c p) ∨
          (∀ n, p.kind? n ≠ some (.ctx domain id)) ∧
            ctx domain id p = .ok p.fresh (p.add (.ctx domain id)).2) := by
  obtain ⟨node, hnode⟩ := Option.isSome_iff_exists.1 hid
  have hdomain : p.domain? id = node.kind.domain? := by
    rw [Pool.domain?, Pool.kind?_of_get? hnode, Option.bind_some]
  have hmatches : ∀ s, (p.get? s).any (·.kind == .ctx domain id) = true ↔
      p.kind? s = some (.ctx domain id) := by
    intro s
    rw [Pool.kind?]
    cases p.get? s <;> simp
  rw [ctx_eq, hnode, hdomain]
  dsimp only
  by_cases hself : node.kind.domain? = some domain
  · exact Or.inl ⟨hself, if_pos hself⟩
  · rw [if_neg hself]
    refine Or.inr ⟨hself, ?_⟩
    cases hfind : node.supers.find? fun s => (p.get? s).any (·.kind == .ctx domain id) with
    | some existing =>
      have hexisting := List.find?_some hfind
      exact Or.inl ⟨existing, (hmatches existing).1 hexisting, rfl⟩
    | none =>
      refine Or.inr ⟨fun n hn => ?_, insert_eq_ok fun s hs => by rwa [List.mem_singleton.1 hs]⟩
      -- it would be among the patterns that embed this one
      have hsuper : n ∈ p.supers id := (hp.mem_supers n id).2 ⟨_, hn, List.mem_singleton_self id⟩
      rw [Pool.supers_of_get? hnode] at hsuper
      exact List.find?_eq_none.1 hfind n hsuper ((hmatches n).2 hn)

theorem growing_ctx (domain : Domain) : Growing none (ctx domain id) := by
  intro p hp
  unfold after
  cases hid : p.contains id with
  | false =>
    rw [Pool.contains, Option.isSome_eq_false_iff, Option.isNone_iff_eq_none] at hid
    rw [ctx_eq, hid]
  | true =>
    obtain ⟨-, hrun⟩ | ⟨-, ⟨c, -, hrun⟩ | ⟨hnew, hrun⟩⟩ := ctx_cases id hp hid domain
    · rw [hrun]
    · rw [hrun]
    · rw [hrun]
      have hvalid : (Kind.ctx domain id).Valid := trivial
      refine ReflTransGen.single (.add hvalid (fun s hs => by rwa [List.mem_singleton.1 hs]) ?_)
      rintro d s hkind
      obtain ⟨rfl, rfl⟩ := Kind.ctx.inj hkind
      exact hnew

theorem growing_startingWith : Growing none (startingWith bytes) :=
  (growing_anchor _).bind fun _ => (growing_lit bytes).bind fun _ => growing_seq _

theorem growing_endingWith : Growing none (endingWith bytes) :=
  (growing_lit bytes).bind fun _ => (growing_anchor _).bind fun _ => growing_seq _

theorem growing_equalTo : Growing none (equalTo bytes) :=
  (growing_anchor _).bind fun _ => (growing_lit bytes).bind fun _ =>
    (growing_anchor _).bind fun _ => growing_seq _

end Constructors

/-! ## Setters -/

theorem growing_describe (id : PatternId) (f : Description → Description) :
    Growing none (describe id f) :=
  Growing.annotate id ⟨fun _ => rfl, fun _ => rfl, fun _ => rfl, fun _ => rfl, fun _ => rfl⟩
    fun _ => rfl

theorem growing_setMatcher (id : PatternId) (matcher : Option Matcher) :
    Growing none (setMatcher id matcher) :=
  Growing.annotate id ⟨fun _ => rfl, fun _ => rfl, fun _ => rfl, fun _ => rfl, fun _ => rfl⟩
    fun _ => rfl

/-! ## Patterns with a matcher of their own -/

theorem growing_withMatcher {e : Edit PatternId} (he : Growing none e) (matcher : Option Matcher) :
    Growing none (do let id ← e; setMatcher id matcher; return id) :=
  he.bind fun id => (growing_setMatcher id matcher).bind fun _ => Growing.pure id

theorem growing_digit : Growing none digit := growing_withMatcher (growing_range _ _) _

theorem growing_hexDigit : Growing none hexDigit :=
  (growing_range _ _).bind fun _ => (growing_range _ _).bind fun _ =>
    (growing_range _ _).bind fun _ => growing_withMatcher (growing_alt _) _

theorem growing_letter : Growing none letter :=
  (growing_range _ _).bind fun _ => (growing_range _ _).bind fun _ =>
    growing_withMatcher (growing_alt _) _

theorem growing_identifier : Growing none identifier :=
  (growing_range _ _).bind fun _ => (growing_range _ _).bind fun _ => (growing_lit _).bind fun _ =>
    (growing_range _ _).bind fun _ => (growing_alt _).bind fun _ => (growing_alt _).bind fun _ =>
      (growing_rep _ _).bind fun _ => growing_withMatcher (growing_seq _) _

/-! ## New sub-patterns -/

theorem growing_pushSub (multi sub : PatternId) : Growing (some multi) (pushSub multi sub) := by
  intro p hp
  unfold pushSub
  rw [after_bind, Edit.node]
  cases hsub : p.get? sub with
  | none => exact ReflTransGen.refl
  | some _ =>
    dsimp only
    rw [after_bind, Edit.node]
    cases hmulti : p.get? multi with
    | none => exact ReflTransGen.refl
    | some node =>
      dsimp only
      split
      case isFalse => exact ReflTransGen.refl
      case isTrue hkind =>
        rw [after_bind]
        show ReflTransGen (Pool.Grows (some multi)) p
          (after (if p.reaches sub multi = true then _ else _) p)
        split
        case isTrue => exact ReflTransGen.refl
        case isFalse hno =>
          have hlive : p.contains sub = true := Pool.contains_of_get? hsub
          rw [Bool.not_eq_true] at hno
          exact ReflTransGen.single (.append rfl (Pool.kind?_of_get? hmulti) hkind hlive hno)

end Edit

end Sigil
