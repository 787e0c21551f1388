import PageLang.Mask.Cache
import PageLang.Proofs.Text.Distinct

/-!
# One cache for many requests

A cache answers a request for a mask with the position of an entry. As long as no two of the texts
asked for have one digest, the entries are the masks of the requests made so far, each once, in the
order in which they were first made.

* `Mask.Cache.Keeps`: the entries after a list of requests.
* `Mask.Cache.Keeps.request`: one request keeps that, and is answered with its own entry.
* `Mask.Cache.Keeps.requests`: so do many.
-/

namespace PageLang.Mask

/-- A grammar, and the text to be masked with it. -/
abbrev Request := Mode × Text

/-- No two different texts of some requests have one digest. -/
def NoCollision (rs : List Request) : Prop :=
  ∀ p ∈ rs, ∀ q ∈ rs, p.2.digest = q.2.digest → p.2 = q.2

instance (rs : List Request) : Decidable (NoCollision rs) :=
  inferInstanceAs (Decidable (∀ p ∈ rs, ∀ q ∈ rs, p.2.digest = q.2.digest → p.2 = q.2))

/-- What is kept for a request. -/
def Request.entry (r : Request) : CacheKey × List Bool :=
  (CacheKey.ofText r.1 r.2, ofText r.1 r.2)

section
variable {rs more : List Request} {r r' : Request}

theorem NoCollision.left (h : NoCollision (rs ++ more)) : NoCollision rs :=
  fun p hp q hq => h p (List.mem_append_left _ hp) q (List.mem_append_left _ hq)

theorem NoCollision.right (h : NoCollision (rs ++ more)) : NoCollision more :=
  fun p hp q hq => h p (List.mem_append_right _ hp) q (List.mem_append_right _ hq)

/-- Requests have one key only if they are the same. -/
theorem NoCollision.eq_of_key (h : NoCollision rs) (hr : r ∈ rs) (hr' : r' ∈ rs)
    (hkey : CacheKey.ofText r.1 r.2 = CacheKey.ofText r'.1 r'.2) : r = r' := by
  have hmode : r.1 = r'.1 := congrArg CacheKey.mode hkey
  exact Prod.ext hmode (h r hr r' hr' (congrArg CacheKey.digest hkey))

/-! ## Distinct requests -/

/-- Further requests add to the distinct ones at the end. -/
theorem eraseDups_prefix (rs more : List Request) :
    rs.eraseDups <+: (rs ++ more).eraseDups := by
  rw [List.eraseDups_append]
  exact List.prefix_append _ _

end

/-! ## Requests -/

namespace Cache

variable {c : Cache} {rs more : List Request} {r : Request}

/-- The positions of the masks that some requests are answered with, one after the other, and the
cache behind them. -/
def requests (c : Cache) : List Request → List Nat × Cache
  | [] => ([], c)
  | r :: rest =>
    let answer := c.request r.1 r.2
    let others := answer.2.requests rest
    (answer.1 :: others.1, others.2)

/-- The cache keeps the masks of some requests, each once. -/
def Keeps (c : Cache) (rs : List Request) : Prop := c.entries = rs.eraseDups.map Request.entry

theorem keeps_empty : empty.Keeps [] := rfl

/-- The mask of a request stands where the request stands among the distinct ones. -/
theorem Keeps.mask? (h : c.Keeps rs) (slot : Nat) :
    c.mask? slot = (rs.eraseDups[slot]?).map fun r => ofText r.1 r.2 := by
  unfold Cache.mask?
  rw [h, List.getElem?_map, Option.map_map]
  rfl

theorem Keeps.size (h : c.Keeps rs) : c.size = rs.eraseDups.length := by
  unfold Cache.size
  rw [h, List.length_map]

/-- One more request is answered with its place among the distinct ones. -/
theorem Keeps.request (h : c.Keeps rs) (hdigests : NoCollision (rs ++ [r])) :
    (c.request r.1 r.2).2.Keeps (rs ++ [r]) ∧
      (rs ++ [r]).eraseDups[(c.request r.1 r.2).1]? = some r := by
  have hlast : r ∈ rs ++ [r] := List.mem_append_right _ (List.mem_singleton_self r)
  have hkey {p : Request} (hp : p ∈ rs.eraseDups) :
      decide (p.entry.1 = CacheKey.ofText r.1 r.2) = true ↔ p = r := by
    rw [decide_eq_true_iff]
    refine ⟨fun heq => ?_, fun heq => by rw [heq]; rfl⟩
    exact hdigests.eq_of_key (List.mem_append_left _ (List.mem_eraseDups.1 hp)) hlast heq
  unfold Cache.request
  dsimp only
  rw [h, List.findIdx?_map, eraseDups_concat]
  cases hfind : rs.eraseDups.findIdx? ((fun e => decide (e.1 = CacheKey.ofText r.1 r.2)) ∘
      Request.entry) with
  | some slot =>
    obtain ⟨hlt, hslot, -⟩ := List.findIdx?_eq_some_iff_getElem.1 hfind
    have hr : rs.eraseDups[slot] = r := (hkey (List.getElem_mem hlt)).1 hslot
    have hmem : r ∈ rs := by
      rw [← List.mem_eraseDups, ← hr]
      exact List.getElem_mem hlt
    rw [if_pos hmem]
    refine ⟨?_, by rw [List.getElem?_eq_getElem hlt, hr]⟩
    unfold Keeps
    rw [eraseDups_concat, if_pos hmem]
    exact h
  | none =>
    have hmem : r ∉ rs := by
      intro hmem
      rw [← List.mem_eraseDups] at hmem
      have hno := List.findIdx?_eq_none_iff.1 hfind r hmem
      rw [Function.comp_apply, (hkey hmem).2 rfl] at hno
      cases hno
    rw [if_neg hmem]
    refine ⟨?_, by simp⟩
    unfold Keeps
    rw [eraseDups_concat, if_neg hmem, List.map_append]
    rfl

/-- An entry is never changed. -/
theorem request_prefix (c : Cache) (mode : Mode) (t : Text) :
    c.entries <+: (c.request mode t).2.entries := by
  unfold Cache.request
  dsimp only
  split
  · exact List.prefix_rfl
  · exact List.prefix_append _ _

theorem requests_prefix (c : Cache) (rs : List Request) :
    c.entries <+: (c.requests rs).2.entries := by
  induction rs generalizing c with
  | nil => exact List.prefix_rfl
  | cons r rest ih => exact (c.request_prefix r.1 r.2).trans (ih _)

/-- Some more requests, one after the other. -/
theorem Keeps.requests (h : c.Keeps rs) (hdigests : NoCollision (rs ++ more)) :
    (c.requests more).2.Keeps (rs ++ more) ∧
      (c.requests more).1.map (fun slot => (rs ++ more).eraseDups[slot]?) = more.map some := by
  induction more generalizing c rs with
  | nil =>
    rw [List.append_nil]
    exact ⟨h, rfl⟩
  | cons r rest ih =>
    have hsplit : rs ++ r :: rest = (rs ++ [r]) ++ rest := by simp
    rw [hsplit] at hdigests ⊢
    obtain ⟨hkeeps, hslot⟩ := h.request hdigests.left
    obtain ⟨hrest, hslots⟩ := ih hkeeps hdigests
    refine ⟨hrest, ?_⟩
    have hlater : (rs ++ [r] ++ rest).eraseDups[(c.request r.1 r.2).1]? = some r := by
      obtain ⟨others, hothers⟩ := eraseDups_prefix (rs ++ [r]) rest
      rw [← hothers, List.getElem?_append_left (List.getElem?_eq_some_iff.1 hslot).1, hslot]
    exact congrArg₂ List.cons hlater hslots

theorem requests_append (c : Cache) (rs more : List Request) :
    (c.requests (rs ++ more)).2 = ((c.requests rs).2.requests more).2 := by
  induction rs generalizing c with
  | nil => rfl
  | cons r rest ih => exact ih _

section
variable {slots : List Nat}

/-- Each answer is the mask of the text asked for. -/
theorem Keeps.map_mask? (h : c.Keeps rs)
    (hslots : slots.map (fun slot => rs.eraseDups[slot]?) = rs.map some) :
    slots.map c.mask? = rs.map (fun r => some (ofText r.1 r.2)) := by
  calc slots.map c.mask?
      = (slots.map (fun slot => rs.eraseDups[slot]?)).map
          (Option.map fun r => ofText r.1 r.2) := by
        rw [List.map_map]
        exact List.map_congr_left fun slot _ => h.mask? slot
    _ = rs.map (fun r => some (ofText r.1 r.2)) := by
        rw [hslots, List.map_map]
        rfl

/-- Answers are one entry just where the requests are one. -/
theorem slot_eq_iff (hslots : slots.map (fun slot => rs.eraseDups[slot]?) = rs.map some)
    {i j : Nat} (hi : i < rs.length) (hj : j < rs.length) :
    slots[i]? = slots[j]? ↔ rs[i]? = rs[j]? := by
  have hlength : slots.length = rs.length := by simpa using congrArg List.length hslots
  have hat {k : Nat} (hk : k < rs.length) : rs.eraseDups[slots[k]]? = some rs[k] := by
    have hmap : (slots.map fun slot => rs.eraseDups[slot]?)[k]? = (rs.map some)[k]? := by
      rw [hslots]
    rw [List.getElem?_map, List.getElem?_map, List.getElem?_eq_getElem (hlength ▸ hk),
      List.getElem?_eq_getElem hk] at hmap
    exact Option.some.inj hmap
  rw [List.getElem?_eq_getElem (hlength ▸ hi), List.getElem?_eq_getElem (hlength ▸ hj),
    List.getElem?_eq_getElem hi, List.getElem?_eq_getElem hj, Option.some_inj, Option.some_inj]
  constructor
  · intro hslot
    have := hat hi
    rw [hslot, hat hj] at this
    exact (Option.some.inj this).symm
  · intro hrequest
    have hsame : rs.eraseDups[slots[i]]? = rs.eraseDups[slots[j]]? := by
      rw [hat hi, hat hj, hrequest]
    have hlt := (List.getElem?_eq_some_iff.1 (hat hi)).1
    exact (List.getElem?_inj hlt (nodup_eraseDups rs)).1 hsame

end

end Cache

end PageLang.Mask
