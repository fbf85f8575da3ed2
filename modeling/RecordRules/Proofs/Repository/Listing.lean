import RecordRules.Repository

/-!
Requests to a repository, and the insertion-ordered map that a phased repository stands for: a
list of identifiers with their rules.
-/

namespace RecordRules

/-- What a repository can be asked.  A visitor answers from the rules that it has been shown so
far, the present one included. -/
inductive Request where
  | put (id text : String)
  | remove (id : String)
  | get (id : String)
  | contains (id : String)
  | size
  | isEmpty
  | ids
  | snapshot
  | forEach (visit : List Rule → Bool)
  | hits (record : Record)
  | survey (record : Record)

inductive Answer where
  | stored
  | rejected (rejection : Rejection)
  | present (b : Bool)
  | rule (found : Option Rule)
  | count (n : Nat)
  | ids (ids : List String)
  | rules (rules : List Rule)
  | survey (found : Survey)

namespace Repository

/-- Shows one more rule to a visitor that answers from the rules shown so far. -/
def showTo (visit : List Rule → Bool) (rule : Rule) : StateM (List Rule) Bool :=
  fun seen => (visit (seen ++ [rule]), seen ++ [rule])

/-- The rules that such a visitor is shown. -/
def shown (r : Repository) (visit : List Rule → Bool) : List Rule :=
  ((r.forEach (showTo visit)).run []).2

/-- The answer to a request, and the repository after it. -/
def serve (r : Repository) : Request → Answer × Repository
  | .put id text =>
      match r.put id text with
      | .ok stored => (.stored, stored)
      | .error rejection => (.rejected rejection, r)
  | .remove id => (.present (r.remove id).1, (r.remove id).2)
  | .get id => (.rule (r.get? id), r)
  | .contains id => (.present (r.contains id), r)
  | .size => (.count r.size, r)
  | .isEmpty => (.present r.isEmpty, r)
  | .ids => (.ids r.ids, r)
  | .snapshot => (.rules r.snapshot, r)
  | .forEach visit => (.rules (r.shown visit), r)
  | .hits record => (.ids (r.hits record), r)
  | .survey record => (.survey (r.survey record), r)

/-- The answers to requests made one after the other, and the repository after them. -/
def serveAll (r : Repository) : List Request → List Answer × Repository
  | [] => ([], r)
  | request :: requests =>
      ((r.serve request).1 :: ((r.serve request).2.serveAll requests).1,
        ((r.serve request).2.serveAll requests).2)

theorem serveAll_concat (r : Repository) (requests : List Request) (request : Request) :
    r.serveAll (requests ++ [request]) =
      ((r.serveAll requests).1 ++ [((r.serveAll requests).2.serve request).1],
        ((r.serveAll requests).2.serve request).2) := by
  induction requests generalizing r with
  | nil => rfl
  | cons first requests ih => rw [List.cons_append, serveAll, ih]; rfl

end Repository

/-- Rules under their identifiers, in the order in which the identifiers came. -/
abbrev Listing := List (String × Rule)

namespace Listing

def rules (l : Listing) : List Rule :=
  l.map Prod.snd

/-- The same identifiers, with another rule under one of them. -/
def replace (l : Listing) (id : String) (rule : Rule) : Listing :=
  l.map fun entry => if entry.1 = id then (id, rule) else entry

/-- Puts a rule in the place of the one with its identifier, or at the end. -/
def put (l : Listing) (id : String) (rule : Rule) : Listing :=
  if id ∈ l.map Prod.fst then l.replace id rule else l ++ [(id, rule)]

/-- The others, in their order. -/
def remove (l : Listing) (id : String) : Listing :=
  l.filter fun entry => entry.1 ≠ id

/-- The rules up to and including the first for which the visitor answers false. -/
def visited (visit : List Rule → Bool) (rules : List Rule) : List Rule :=
  rules.take (((List.range' 1 rules.length).find? fun n => !visit (rules.take n)).getD
    rules.length)

/-- The answer of the list to a request, and the list after it. -/
def serve (c : Compiler) (l : Listing) : Request → Answer × Listing
  | .put id text =>
      match c.compile text with
      | .ok predicate => (.stored, l.put id ⟨id, text, predicate⟩)
      | .error cause => (.rejected ⟨id, cause⟩, l)
  | .remove id => (.present (decide (id ∈ l.map Prod.fst)), l.remove id)
  | .get id => (.rule (l.lookup id), l)
  | .contains id => (.present (decide (id ∈ l.map Prod.fst)), l)
  | .size => (.count l.length, l)
  | .isEmpty => (.present l.isEmpty, l)
  | .ids => (.ids (l.map Prod.fst), l)
  | .snapshot => (.rules l.rules, l)
  | .forEach visit => (.rules (visited visit l.rules), l)
  | .hits record => (.ids ((l.filter (·.2.holdsOn record)).map Prod.fst), l)
  | .survey record => (.survey (.ofRules record l.rules), l)

def serveAll (c : Compiler) (l : Listing) : List Request → List Answer × Listing
  | [] => ([], l)
  | request :: requests =>
      ((l.serve c request).1 :: (serveAll c (l.serve c request).2 requests).1,
        (serveAll c (l.serve c request).2 requests).2)

/-! ### The entries around an identifier -/

theorem map_fst_replace (l : Listing) (id : String) (rule : Rule) :
    (l.replace id rule).map Prod.fst = l.map Prod.fst := by
  rw [replace, List.map_map]
  apply List.map_congr_left
  intro entry _
  by_cases hid : entry.1 = id
  · simp [hid]
  · simp [hid]

section Absent

variable {l : Listing} {id : String} (h : id ∉ l.map Prod.fst)

include h

theorem fst_ne_of_not_mem {entry : String × Rule} (hmem : entry ∈ l) : entry.1 ≠ id := by
  rintro rfl
  exact h (List.mem_map_of_mem hmem)

theorem put_of_not_mem (rule : Rule) : l.put id rule = l ++ [(id, rule)] :=
  if_neg h

theorem replace_of_not_mem (rule : Rule) : l.replace id rule = l := by
  refine Eq.trans (List.map_congr_left ?_) (List.map_id l)
  intro entry hmem
  exact if_neg (fst_ne_of_not_mem h hmem)

theorem remove_of_not_mem : l.remove id = l := by
  rw [remove, List.filter_eq_self]
  intro entry hmem
  exact decide_eq_true (fst_ne_of_not_mem h hmem)

theorem lookup_of_not_mem : l.lookup id = none := by
  rw [List.lookup_eq_none_iff]
  intro entry hmem
  exact bne_iff_ne.2 (fst_ne_of_not_mem h hmem).symm

end Absent

section Present

variable {before after : Listing} {id : String} (old : Rule)
  (hbefore : id ∉ before.map Prod.fst) (hafter : id ∉ after.map Prod.fst)

include hbefore hafter

theorem put_append_cons (rule : Rule) :
    Listing.put (before ++ (id, old) :: after) id rule = before ++ (id, rule) :: after := by
  have hmem : id ∈ (before ++ (id, old) :: after).map Prod.fst := by simp
  have hone : (if (id, old).1 = id then (id, rule) else (id, old)) = (id, rule) := if_pos rfl
  rw [put, if_pos hmem, replace, List.map_append, List.map_cons, hone]
  congr 1
  · exact replace_of_not_mem hbefore rule
  · congr 1
    exact replace_of_not_mem hafter rule

theorem remove_append_cons :
    Listing.remove (before ++ (id, old) :: after) id = before ++ after := by
  rw [remove, List.filter_append, List.filter_cons_of_neg (by simp)]
  congr 1
  · exact remove_of_not_mem hbefore
  · exact remove_of_not_mem hafter

omit hafter in
theorem lookup_append_cons :
    List.lookup id (before ++ (id, old) :: after) = some old := by
  rw [List.lookup_append, lookup_of_not_mem hbefore, Option.none_or, List.lookup_cons_self]

end Present

/-! ### What is found under an identifier -/

theorem lookup_cons (entry : String × Rule) (l : Listing) (id : String) :
    List.lookup id (entry :: l) = if id = entry.1 then some entry.2 else l.lookup id := by
  obtain ⟨key, rule⟩ := entry
  by_cases h : id = key
  · rw [if_pos h, h, List.lookup_cons_self]
  · rw [if_neg h, List.lookup_cons, beq_eq_false_iff_ne.2 h]

theorem lookup_replace (l : Listing) (id : String) (rule : Rule) (other : String) :
    (l.replace id rule).lookup other =
      if other = id ∧ id ∈ l.map Prod.fst then some rule else l.lookup other := by
  induction l with
  | nil => simp [replace]
  | cons entry l ih =>
      have hcons : Listing.replace (entry :: l) id rule =
          (if entry.1 = id then (id, rule) else entry) :: Listing.replace l id rule := rfl
      rw [hcons, lookup_cons, lookup_cons, ih, List.map_cons]
      by_cases hkey : entry.1 = id
      · by_cases hother : other = id
        · simp [hkey, hother]
        · simp [hkey, hother]
      · by_cases hother : other = entry.1
        · simp [hkey, hother]
        · have hmem : id ∈ entry.1 :: l.map Prod.fst ↔ id ∈ l.map Prod.fst := by
            rw [List.mem_cons, or_iff_right (Ne.symm hkey)]
          rw [if_neg hkey, if_neg hother, if_neg hother]
          simp only [hmem]

/-- A rule that was put is found, and under every other identifier the same as before. -/
theorem lookup_put (l : Listing) (id : String) (rule : Rule) (other : String) :
    (l.put id rule).lookup other = if other = id then some rule else l.lookup other := by
  rw [put]
  split
  · next hmem => simp only [lookup_replace, hmem, and_true]
  · next hmem =>
      rw [List.lookup_append]
      by_cases hother : other = id
      · rw [if_pos hother, hother, lookup_of_not_mem hmem, List.lookup_cons_self, Option.none_or]
      · rw [if_neg hother, lookup_cons, if_neg hother, List.lookup_nil, Option.or_none]

theorem lookup_remove (l : Listing) (id other : String) :
    (l.remove id).lookup other = if other = id then none else l.lookup other := by
  induction l with
  | nil => simp [remove]
  | cons entry l ih =>
      by_cases hkey : entry.1 = id
      · have hcons : Listing.remove (entry :: l) id = Listing.remove l id :=
          List.filter_cons_of_neg (by simp [hkey])
        rw [hcons, ih, lookup_cons, hkey]
        by_cases hother : other = id
        · rw [if_pos hother, if_pos hother]
        · rw [if_neg hother, if_neg hother, if_neg hother]
      · have hcons : Listing.remove (entry :: l) id = entry :: Listing.remove l id :=
          List.filter_cons_of_pos (by simp [hkey])
        rw [hcons, lookup_cons, lookup_cons, ih]
        by_cases hother : other = entry.1
        · simp [hother, hkey]
        · rw [if_neg hother, if_neg hother]

theorem map_fst_put (l : Listing) (id : String) (rule : Rule) :
    (l.put id rule).map Prod.fst =
      if id ∈ l.map Prod.fst then l.map Prod.fst else l.map Prod.fst ++ [id] := by
  rw [put]
  split
  · exact map_fst_replace l id rule
  · rw [List.map_append, List.map_singleton]

theorem map_fst_remove (l : Listing) (id : String) :
    (l.remove id).map Prod.fst = (l.map Prod.fst).filter (· ≠ id) := by
  rw [remove, List.filter_map]
  rfl

/-- Where no identifier occurs twice, what is found is what is listed. -/
theorem lookup_eq_some_iff_mem {l : Listing} (h : (l.map Prod.fst).Nodup) {id : String}
    {rule : Rule} : l.lookup id = some rule ↔ (id, rule) ∈ l := by
  rw [List.lookup_eq_some_iff]
  constructor
  · rintro ⟨before, after, rfl, -⟩
    simp
  · intro hmem
    obtain ⟨before, after, rfl⟩ := List.append_of_mem hmem
    rw [List.map_append, List.map_cons, List.nodup_append] at h
    refine ⟨before, after, rfl, ?_⟩
    intro entry hentry
    have hne := h.2.2 entry.1 (List.mem_map_of_mem hentry) id List.mem_cons_self
    exact bne_iff_ne.2 hne.symm

/-! ### What a visitor is shown -/

theorem visited_nil (visit : List Rule → Bool) : visited visit [] = [] := rfl

/-- After the first rule the visitor goes on with what it has seen, or stops. -/
theorem visited_cons (visit : List Rule → Bool) (rule : Rule) (rules : List Rule) :
    visited visit (rule :: rules) =
      if visit [rule] then rule :: visited (fun seen => visit (rule :: seen)) rules
      else [rule] := by
  have hrange : List.range' 1 (rule :: rules).length =
      1 :: (List.range' 1 rules.length).map (· + 1) := by
    rw [List.length_cons, List.range'_succ, List.range'_succ_left]
  rw [visited, hrange]
  cases hvisit : visit [rule] with
  | false => simp [hvisit]
  | true =>
      have hstep : ((fun n => !visit ((rule :: rules).take n)) ∘ (· + 1)) =
          fun n => !visit (rule :: rules.take n) := rfl
      rw [List.find?_cons_of_neg (by simp [hvisit]), List.find?_map, hstep, if_pos rfl, visited,
        List.length_cons]
      cases (List.range' 1 rules.length).find? fun n => !visit (rule :: rules.take n) with
      | none => rfl
      | some n => rfl

/-- What was seen before the visit counts for the answers and stays in front. -/
theorem visitWhile_showTo (visit : List Rule → Bool) (rules seen : List Rule) :
    ((Repository.visitWhile (Repository.showTo visit) rules).run seen).2 =
      seen ++ visited (fun more => visit (seen ++ more)) rules := by
  induction rules generalizing seen with
  | nil =>
      rw [visited_nil, List.append_nil]
      rfl
  | cons rule rules ih =>
      have hstep : (Repository.visitWhile (Repository.showTo visit) (rule :: rules)).run seen =
          (if visit (seen ++ [rule]) then
            Repository.visitWhile (Repository.showTo visit) rules
          else pure ()).run (seen ++ [rule]) := rfl
      rw [hstep, visited_cons]
      by_cases hvisit : visit (seen ++ [rule]) = true
      · rw [if_pos hvisit, if_pos hvisit, ih, List.append_assoc]
        simp only [List.append_assoc, List.singleton_append]
      · rw [if_neg hvisit, if_neg hvisit]
        rfl

theorem shown_eq_visited (r : Repository) (visit : List Rule → Bool) :
    r.shown visit = visited visit r.snapshot :=
  visitWhile_showTo visit r.snapshot []

end Listing

end RecordRules
