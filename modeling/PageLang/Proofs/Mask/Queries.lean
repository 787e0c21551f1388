import PageLang.Proofs.Include.Splice
import PageLang.Proofs.Mask.Shared
import PageLang.Script.Qualify

/-!
# Reading with a cache in use

All that is read of texts is read through their masks. A query is a computation that asks for masks
as it goes on, where later requests may depend on what earlier masks showed. It has one result, with
a mask made afresh for each request and with a cache that has been in use for other texts, as long
as no two of the texts have one digest.

* `Mask.Query.runWith_eq`: the result of a query.
* `Mask.Query.parse`, `Sources.expandQuery`, `Qualify.qualifyQuery`: every parser of one text, the
  expansion of a root file, and the qualification of a body are queries.
* `Mask.Cache.requests_transparent`: all that a cache answers.
-/

namespace PageLang

/-- A text masked with a mask that was made before. -/
def MaskedText.ofMask (t : Text) (mask : List Bool) : MaskedText :=
  ⟨t.toArray, (t.mapIdx (fun i _ => mask.getD i false)).toArray, by simp⟩

theorem MaskedText.ofMask_ofText (mode : Mode) (t : Text) :
    ofMask t (Mask.ofText mode t) = ofText mode t := by
  have hmask : t.mapIdx (fun i _ => (Mask.ofText mode t).getD i false) = Mask.ofText mode t := by
    refine List.ext_getElem (by simp) fun i hi hi' => ?_
    rw [List.getElem_mapIdx, List.getD_eq_getElem?_getD, List.getElem?_eq_getElem hi']
    rfl
  unfold ofMask ofText
  simp only [hmask]

namespace Mask

/-- A computation that asks for masks. -/
inductive Query (α : Type) where
  | done (result : α)
  | ask (mode : Mode) (t : Text) (next : MaskedText → Query α)

namespace Query

variable {α β : Type} {c : Cache} {rs : List Request}

/-- One query after the other. -/
def bind : Query α → (α → Query β) → Query β
  | done a, next => next a
  | ask mode t step, next => ask mode t fun s => (step s).bind next

/-- What reads a single text. -/
def parse (mode : Mode) (t : Text) (f : MaskedText → α) : Query α := ask mode t fun s => done (f s)

/-- The result where each mask is made afresh. -/
def run : Query α → α
  | done a => a
  | ask mode t next => (next (.ofText mode t)).run

/-- The requests made, in order. -/
def asked : Query α → List Request
  | done _ => []
  | ask mode t next => (mode, t) :: (next (.ofText mode t)).asked

/-- The result where the masks are those that a cache answers with, and the cache behind them. -/
def runWith (c : Cache) : Query α → α × Cache
  | done a => (a, c)
  | ask mode t next =>
    let answer := c.request mode t
    (next (.ofMask t ((answer.2.mask? answer.1).getD []))).runWith answer.2

theorem run_bind (p : Query α) (next : α → Query β) : (p.bind next).run = (next p.run).run := by
  induction p with
  | done a => rfl
  | ask mode t step ih => exact ih _

/-- A cache in use changes no result, and is left as after the requests alone. By induction on the
query: the cache keeps the masks of all that was asked for, so each answer is the mask of its own
text. -/
theorem runWith_eq (p : Query α) (h : c.Keeps rs) (hdigests : NoCollision (rs ++ p.asked)) :
    p.runWith c = (p.run, (c.requests p.asked).2) := by
  induction p generalizing c rs with
  | done a => rfl
  | ask mode t next ih =>
    have hsplit : rs ++ (ask mode t next).asked =
        (rs ++ [(mode, t)]) ++ (next (.ofText mode t)).asked := by simp [asked]
    rw [hsplit] at hdigests
    obtain ⟨hkeeps, hslot⟩ := h.request hdigests.left
    have hmask : .ofMask t (((c.request mode t).2.mask? (c.request mode t).1).getD []) =
        MaskedText.ofText mode t := by
      rw [hkeeps.mask?, hslot]
      exact MaskedText.ofMask_ofText mode t
    unfold runWith run asked
    dsimp only
    rw [hmask]
    exact ih _ hkeeps hdigests

end Query

end Mask

/-! ## Queries -/

open Mask

/-- Starting a file, with its mask asked for. -/
def Expansion.openFileQuery (e : Expansion) (name source : Text) (depth : Nat) :
    Query (OpenFile × List Directive × Expansion) :=
  .parse .declarations source fun code =>
    let found := code.directives (Path.ofText name).directory
    (⟨name, source, e.positionMap.files.length, depth⟩, found.1,
      { e with
        positionMap := { e.positionMap with files := e.positionMap.files ++ [name] }
        diagnostics := e.diagnostics ++ found.2.map (fun fault => fault.diagnostic name source) })

theorem Expansion.run_openFileQuery (e : Expansion) (name source : Text) (depth : Nat) :
    (e.openFileQuery name source depth).run = e.openFile name source depth := rfl

namespace Sources

/-- Flattening an open file, with the mask of each included file asked for. -/
def expandFromQuery (s : Sources) (chain : List Text) (f : OpenFile) (cursor : Nat) :
    (directives : List Directive) → Expansion → Query Expansion
  | [], e => .done (e.pushSlice f cursor f.source.length)
  | d :: rest, e =>
    let e := e.pushSlice f cursor d.span.start
    match _h : s.replacement? chain d with
    | none => s.expandFromQuery chain f d.span.stop rest (e.reject f d (refusal chain d))
    | some inner =>
      (e.openFileQuery d.target inner (f.depth + 1)).bind fun opened =>
        (s.expandFromQuery (d.target :: chain) opened.1 0 opened.2.1 opened.2.2).bind
          fun included =>
            s.expandFromQuery chain f d.span.stop rest (included.record f d (e.lines + 1))
termination_by directives => (s.unseen chain, directives.length)
decreasing_by
  · exact Prod.Lex.right _ (Nat.lt_succ_self _)
  · exact Prod.Lex.left _ _ (unseen_lt_of_replacement? _h)
  · exact Prod.Lex.right _ (Nat.lt_succ_self _)

/-- The flattened text of a root file, with the mask of each file asked for. -/
def expandQuery (s : Sources) (root source : Text) : Query Expansion :=
  (Expansion.empty.openFileQuery root source 0).bind fun opened =>
    s.expandFromQuery [(Path.ofText root).key] opened.1 0 opened.2.1 opened.2.2

theorem run_expandFromQuery (s : Sources) (chain : List Text) (f : OpenFile) (cursor : Nat)
    (directives : List Directive) (e : Expansion) :
    (s.expandFromQuery chain f cursor directives e).run =
      s.expandFrom chain f cursor directives e := by
  induction chain, f, cursor, directives, e using expandFromQuery.induct s with
  | case1 chain f cursor e =>
    rw [expandFromQuery, expandFrom_nil]
    rfl
  | case2 chain f cursor d rest e written h ih =>
    rw [expandFrom_refused f cursor rest e h, ← ih, expandFromQuery]
    split
    · rfl
    · next hsome => rw [h] at hsome; cases hsome
  | case3 chain f cursor d rest e written inner h ihInner ih =>
    rw [expandFrom_replaced f cursor rest e h, expandFromQuery]
    split
    · next hnone => rw [h] at hnone; cases hnone
    · next inner' hsome =>
      cases Option.some.inj (h.symm.trans hsome)
      rw [Query.run_bind, Query.run_bind, Expansion.run_openFileQuery, ihInner, ih]
      rfl

theorem run_expandQuery (s : Sources) (root source : Text) :
    (s.expandQuery root source).run = s.expandSource root source := by
  rw [expandQuery, Query.run_bind, run_expandFromQuery]
  rfl

end Sources

/-- Qualifying the references of a body, with its mask asked for. -/
def Qualify.qualifyQuery (body : Text) (names : ResolvableNames) (parameters : List Text)
    (context : BodyContext) : Query Text :=
  .parse .code body fun s => body.replaceAll (replacements s names parameters context)

theorem Qualify.run_qualifyQuery (body : Text) (names : ResolvableNames) (parameters : List Text)
    (context : BodyContext) :
    (qualifyQuery body names parameters context).run = qualify body names parameters context := rfl

namespace Mask.Cache

/-- A cache is transparent. Where the texts asked for have distinct digests, each answer is the mask
of the text asked for; two answers are one entry just where text and grammar are the same; there
are as many entries as there are distinct requests so far; later requests leave them as they are.
So what asks for masks has the result that it has with masks of its own: every parser, the
expansion of a root file, and the qualification of a body. -/
theorem requests_transparent (rs : List Request) (hdigests : NoCollision rs) :
    let slots := (empty.requests rs).1
    let used := (empty.requests rs).2
    slots.map used.mask? = rs.map (fun r => some (ofText r.1 r.2)) ∧
    (∀ i j, i < rs.length → j < rs.length → (slots[i]? = slots[j]? ↔ rs[i]? = rs[j]?)) ∧
    (∀ earlier later, rs = earlier ++ later →
      (empty.requests earlier).2.size = earlier.eraseDups.length ∧
      (empty.requests earlier).2.entries <+: used.entries) ∧
    (∀ (α : Type) (p : Query α), NoCollision (rs ++ p.asked) →
      p.runWith used = (p.run, (used.requests p.asked).2) ∧ (p.runWith empty).1 = p.run) ∧
    (∀ (α : Type) (mode : Mode) (t : Text) (parser : MaskedText → α),
      NoCollision (rs ++ [(mode, t)]) →
      ((Query.parse mode t parser).runWith used).1 = parser (.ofText mode t)) ∧
    (∀ (s : Sources) (root source : Text), NoCollision (rs ++ (s.expandQuery root source).asked) →
      ((s.expandQuery root source).runWith used).1 = s.expandSource root source) ∧
    (∀ (body : Text) (names : ResolvableNames) (parameters : List Text) (context : BodyContext),
      NoCollision (rs ++ [(.code, body)]) →
      ((Qualify.qualifyQuery body names parameters context).runWith used).1 =
        Qualify.qualify body names parameters context) := by
  intro slots used
  have h : NoCollision ([] ++ rs) := hdigests
  obtain ⟨hkeeps, hslots⟩ := keeps_empty.requests h
  have hread {α : Type} (p : Query α) (hp : NoCollision (rs ++ p.asked)) :
      p.runWith used = (p.run, (used.requests p.asked).2) := p.runWith_eq hkeeps hp
  refine ⟨hkeeps.map_mask? hslots, fun i j hi hj => slot_eq_iff hslots hi hj, ?_,
    fun α p hp => ⟨hread p hp, ?_⟩, fun α mode t parser hp => ?_, fun s root source hp => ?_,
    fun body names parameters context hp => ?_⟩
  · rintro earlier later rfl
    have hdigests' : NoCollision ([] ++ earlier) := hdigests.left
    have hearlier := (keeps_empty.requests hdigests').1
    refine ⟨hearlier.size, ?_⟩
    rw [show used = ((empty.requests earlier).2.requests later).2 from requests_append ..]
    exact requests_prefix _ later
  · have hfresh : NoCollision ([] ++ p.asked) := hp.right
    rw [p.runWith_eq keeps_empty hfresh]
  · rw [hread (.parse mode t parser) hp]
    rfl
  · rw [hread _ hp, s.run_expandQuery]
  · rw [hread (Qualify.qualifyQuery body names parameters context) hp]
    rfl

/-- Two texts, one of them with both grammars, and one request made again. -/
def sampleRequests : List Request :=
  [(.declarations, "x: 'a';"), (.code, "x: 'a';"), (.declarations, "x: 'b';"),
    (.declarations, "x: 'a';")]

theorem requests_transparent_sample :
    (empty.requests sampleRequests).1 = [0, 1, 2, 0] ∧
    (empty.requests sampleRequests).2.size = 3 ∧
    ((Qualify.qualifyQuery "return x + 'x';" ⟨["x"], []⟩ [] .instanced).runWith
        (empty.requests sampleRequests).2).1 =
      Qualify.qualify "return x + 'x';" ⟨["x"], []⟩ [] .instanced := by
  obtain ⟨-, -, hentries, -, -, -, hbody⟩ :=
    requests_transparent sampleRequests (by decide +kernel)
  refine ⟨by decide +kernel, ?_, hbody _ _ _ _ (by decide +kernel)⟩
  rw [(hentries sampleRequests [] (by simp)).1]
  decide

end Mask.Cache

end PageLang
