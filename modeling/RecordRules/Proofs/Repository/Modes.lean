import RecordRules.Proofs.Repository.Listing
import RecordRules.Proofs.Repository.Store
import RecordRules.Proofs.Repository.Survey

/-!
The two modes side by side.  A concurrent repository promises no order, and may visit its rules in
another one every time.  Asked the same from the beginning, repositories of both modes give the
same answers, but for the order of what they list.
-/

namespace RecordRules

/-- An order that a concurrent store may happen to visit its rules in: each rule once. -/
structure VisitOrder where
  arrange : List Rule → List Rule
  perm : ∀ rules, (arrange rules).Perm rules

/-- The order in which the store lists its rules. -/
def VisitOrder.listed : VisitOrder :=
  ⟨id, fun _ => .refl _⟩

/-- Whether the answer shows in which order the rules are visited. -/
def Request.showsOrder : Request → Bool
  | .ids | .snapshot | .forEach _ | .hits _ | .survey _ => true
  | .put _ _ | .remove _ | .get _ | .contains _ | .size | .isEmpty => false

/-- The visitor answers false at the `k`-th rule and not before, whatever the rules are. -/
structure StopsAfter (visit : List Rule → Bool) (k : Nat) : Prop where
  pos : 0 < k
  goes : ∀ seen, seen ≠ [] → seen.length < k → visit seen = true
  stops : ∀ seen, seen.length = k → visit seen = false

/-- Two answers to a request agree but for the order of rules, where there are `size` rules.  A
visitor that stops after `k` rules is shown `k` different ones, or all if there are fewer. -/
inductive Answer.Agree (size : Nat) : Request → Answer → Answer → Prop
  | same {request : Request} {answer : Answer} : request.showsOrder = false →
      Agree size request answer answer
  | ids {xs ys : List String} : xs.Perm ys → Agree size .ids (.ids xs) (.ids ys)
  | snapshot {xs ys : List Rule} : xs.Perm ys → Agree size .snapshot (.rules xs) (.rules ys)
  | forEach {visit : List Rule → Bool} {xs ys : List Rule} :
      (xs.map (·.id)).Nodup → (ys.map (·.id)).Nodup →
      (∀ k, StopsAfter visit k → xs.length = min k size ∧ ys.length = min k size) →
      Agree size (.forEach visit) (.rules xs) (.rules ys)
  | hits {record : Record} {xs ys : List String} : xs.Perm ys →
      Agree size (.hits record) (.ids xs) (.ids ys)
  | survey {record : Record} {xs ys : Survey} : xs.hits.Perm ys.hits →
      xs.evaluated = ys.evaluated → xs.failed = ys.failed →
      Agree size (.survey record) (.survey xs) (.survey ys)

namespace Repository

/-- The rules in the order in which they are visited, if that of a concurrent store is this. -/
def visits (r : Repository) (o : VisitOrder) : List Rule :=
  match r.mode with
  | .concurrent => o.arrange r.snapshot
  | .phased => r.snapshot

/-- The answer to a request, and the repository after it, if a concurrent store visits its rules
in this order. -/
def serveIn (o : VisitOrder) (r : Repository) : Request → Answer × Repository
  | .ids => (.ids ((r.visits o).map (·.id)), r)
  | .snapshot => (.rules (r.visits o), r)
  | .forEach visit => (.rules ((visitWhile (showTo visit) (r.visits o)).run []).2, r)
  | .hits record => (.ids (((r.visits o).filter (·.holdsOn record)).map (·.id)), r)
  | .survey record => (.survey (.ofRules record (r.visits o)), r)
  | request => r.serve request

/-- The answers to requests made one after the other, with an order of visiting for each. -/
def serveAllIn (r : Repository) (orders : Nat → VisitOrder) : List Request → List Answer
  | [] => []
  | request :: requests =>
      (r.serveIn (orders 0) request).1 ::
        (r.serveIn (orders 0) request).2.serveAllIn (fun n => orders (n + 1)) requests

/-- Two lists of answers to the same requests agree one by one, each pair where there are as many
rules as in the repository at its turn. -/
inductive Agreement : Repository → List Request → List Answer → List Answer → Prop
  | nil {r : Repository} : Agreement r [] [] []
  | cons {r : Repository} {request : Request} {requests : List Request} {x y : Answer}
      {xs ys : List Answer} : Answer.Agree r.size request x y →
      Agreement (r.serve request).2 requests xs ys →
      Agreement r (request :: requests) (x :: xs) (y :: ys)

/-! ### Orders of visiting -/

section Orders

variable (o : VisitOrder) (r : Repository)

theorem visits_listed : r.visits .listed = r.snapshot := by
  rw [visits]
  cases r.mode <;> rfl

theorem serveIn_of_showsOrder_eq_false {request : Request} (h : request.showsOrder = false) :
    r.serveIn o request = r.serve request := by
  cases request <;> first | rfl | cases h

/-- A repository that visits its rules as it lists them answers as it does. -/
theorem serveIn_listed (request : Request) : r.serveIn .listed request = r.serve request := by
  cases request with
  | ids | snapshot | forEach visit | hits record | survey record => rw [serveIn, visits_listed]; rfl
  | _ => exact serveIn_of_showsOrder_eq_false .listed r rfl

theorem serveAllIn_listed (requests : List Request) :
    r.serveAllIn (fun _ => .listed) requests = (r.serveAll requests).1 := by
  induction requests generalizing r with
  | nil => rfl
  | cons request requests ih => rw [serveAllIn, serveAll, serveIn_listed, ih]

/-- The order of visiting changes nothing in the repository. -/
theorem serveIn_snd (request : Request) : (r.serveIn o request).2 = (r.serve request).2 := by
  cases request <;> rfl

theorem perm_visits : (r.visits o).Perm r.snapshot := by
  rw [visits]
  cases r.mode with
  | concurrent => exact o.perm r.snapshot
  | phased => exact .refl _

theorem length_visits : (r.visits o).length = r.size :=
  (r.perm_visits o).length_eq.trans RuleStore.Coherent.size_eq.symm

variable {r} in
theorem nodup_map_visits (h : r.store.Coherent) : ((r.visits o).map (·.id)).Nodup :=
  ((r.perm_visits o).map _).nodup_iff.2 h.nodup_ids

end Orders

/-! ### Visitors -/

theorem visited_sublist (visit : List Rule → Bool) (rules : List Rule) :
    (Listing.visited visit rules).Sublist rules :=
  List.take_sublist _ _

/-- A visitor that stops after `k` rules is shown `k`, or all if there are fewer. -/
theorem length_visited {visit : List Rule → Bool} {k : Nat} (h : StopsAfter visit k)
    (rules : List Rule) : (Listing.visited visit rules).length = min k rules.length := by
  induction rules generalizing visit k with
  | nil => simp [Listing.visited_nil]
  | cons rule rules ih =>
      have hpos := h.pos
      rw [Listing.visited_cons, List.length_cons]
      by_cases hk : k = 1
      · rw [h.stops [rule] hk.symm, if_neg Bool.false_ne_true, List.length_singleton]
        omega
      · have hrest : StopsAfter (fun seen => visit (rule :: seen)) (k - 1) := by
          refine ⟨by omega, ?_, ?_⟩
          · intro seen _ hlength
            exact h.goes _ (List.cons_ne_nil _ _) (by rw [List.length_cons]; omega)
          · intro seen hlength
            exact h.stops _ (by rw [List.length_cons]; omega)
        rw [h.goes [rule] (List.cons_ne_nil _ _) (by rw [List.length_singleton]; omega), if_pos rfl,
          List.length_cons, ih hrest]
        omega

/-! ### Repositories in which the same is found -/

/-- Two repositories with one compiler, in whose coherent stores the same is found under these
identifiers. -/
structure AlikeOn (K : String → Prop) (r s : Repository) : Prop where
  compiler_eq : r.compiler = s.compiler
  coherent : r.store.Coherent
  coherent' : s.store.Coherent
  get?_eq : ∀ id, K id → r.get? id = s.get? id

/-- Two repositories with one compiler, in whose coherent stores the same is found. -/
def Alike (r s : Repository) : Prop :=
  AlikeOn (fun _ => True) r s

namespace AlikeOn

variable {K : String → Prop} {r s : Repository} (h : AlikeOn K r s)

include h

theorem contains_eq {id : String} (hid : K id) : r.contains id = s.contains id := by
  rw [contains, contains, h.coherent.contains_eq, h.coherent'.contains_eq]
  exact congrArg Option.isSome (h.get?_eq id hid)

theorem install (rule : Rule) :
    AlikeOn K ⟨r.compiler, r.store.install rule⟩ ⟨s.compiler, s.store.install rule⟩ where
  compiler_eq := h.compiler_eq
  coherent := h.coherent.install rule
  coherent' := h.coherent'.install rule
  get?_eq id hid := by
    have hget : r.store.get? id = s.store.get? id := h.get?_eq id hid
    rw [get?, get?, h.coherent.get?_install, h.coherent'.get?_install, hget]

theorem remove (id : String) : AlikeOn K (r.remove id).2 (s.remove id).2 where
  compiler_eq := h.compiler_eq
  coherent := h.coherent.erase id
  coherent' := h.coherent'.erase id
  get?_eq other hother := by
    have hget : r.store.get? other = s.store.get? other := h.get?_eq other hother
    rw [Repository.remove, Repository.remove, get?, get?, h.coherent.get?_erase,
      h.coherent'.get?_erase, hget]

/-- A request leaves repositories that are alike. -/
theorem serve (request : Request) : AlikeOn K (r.serve request).2 (s.serve request).2 := by
  cases request with
  | put id text =>
      rw [Repository.serve, Repository.serve, put, put, h.compiler_eq]
      cases Rule.compile s.compiler id text with
      | ok rule =>
          have hinstall := h.install rule
          rw [h.compiler_eq] at hinstall
          exact hinstall
      | error rejection => exact h
  | remove id => exact h.remove id
  | _ => exact h

theorem serve_put_fst (id text : String) :
    (r.serve (.put id text)).1 = (s.serve (.put id text)).1 := by
  rw [Repository.serve, Repository.serve, put, put, h.compiler_eq]
  cases Rule.compile s.compiler id text <;> rfl

end AlikeOn

theorem alike_empty (c : Compiler) (mode mode' : Mode) :
    Alike ((empty mode).withCompiler c) ((empty mode').withCompiler c) where
  compiler_eq := rfl
  coherent := RuleStore.coherent_empty mode
  coherent' := RuleStore.coherent_empty mode'
  get?_eq id _ := (RuleStore.get?_empty mode id).trans (RuleStore.get?_empty mode' id).symm

namespace Alike

variable {r s : Repository} (h : Alike r s)

include h

theorem perm_snapshot : r.snapshot.Perm s.snapshot :=
  h.coherent.perm_toList h.coherent' fun id => h.get?_eq id trivial

theorem perm_visits (o o' : VisitOrder) : (r.visits o).Perm (s.visits o') :=
  ((r.perm_visits o).trans h.perm_snapshot).trans (s.perm_visits o').symm

theorem size_eq : r.size = s.size := by
  rw [← length_visits .listed, ← length_visits .listed]
  exact (h.perm_visits _ _).length_eq

/-- Answers that show no order are the same. -/
theorem serve_fst {request : Request} (hrequest : request.showsOrder = false) :
    (r.serve request).1 = (s.serve request).1 := by
  cases request with
  | put id text => exact h.serve_put_fst id text
  | remove id => exact congrArg Answer.present (h.contains_eq trivial)
  | get id => exact congrArg Answer.rule (h.get?_eq id trivial)
  | contains id => exact congrArg Answer.present (h.contains_eq trivial)
  | size => exact congrArg Answer.count h.size_eq
  | isEmpty => exact congrArg (fun n => Answer.present (n == 0)) h.size_eq
  | _ => cases hrequest

/-- Whatever the orders of visiting are, the answers to a request agree. -/
theorem agree (o o' : VisitOrder) (request : Request) :
    Answer.Agree s.size request (r.serveIn o request).1 (s.serveIn o' request).1 := by
  have hperm := h.perm_visits o o'
  by_cases horder : request.showsOrder = false
  · rw [serveIn_of_showsOrder_eq_false o r horder, serveIn_of_showsOrder_eq_false o' s horder,
      h.serve_fst horder]
    exact .same horder
  · cases request with
    | ids => exact .ids (hperm.map _)
    | snapshot => exact .snapshot hperm
    | forEach visit =>
        rw [serveIn, serveIn, Listing.visitWhile_showTo, Listing.visitWhile_showTo,
          List.nil_append, List.nil_append]
        refine .forEach ?_ ?_ ?_
        · exact (nodup_map_visits o h.coherent).sublist ((visited_sublist visit _).map _)
        · exact (nodup_map_visits o' h.coherent').sublist ((visited_sublist visit _).map _)
        · intro k hk
          rw [← length_visits o' s]
          exact ⟨(length_visited hk _).trans (by rw [hperm.length_eq]), length_visited hk _⟩
    | hits record => exact .hits ((hperm.filter _).map _)
    | survey record =>
        rw [serveIn, serveIn, Survey.ofRules_eq, Survey.ofRules_eq]
        exact .survey ((hperm.filter _).map _) hperm.length_eq (hperm.countP_eq _)
    | _ => exact absurd rfl horder

theorem agreement (orders orders' : Nat → VisitOrder) (requests : List Request) :
    Agreement s requests (r.serveAllIn orders requests) (s.serveAllIn orders' requests) := by
  induction requests generalizing r s orders orders' with
  | nil => exact .nil
  | cons request requests ih =>
      rw [serveAllIn, serveAllIn, serveIn_snd, serveIn_snd]
      exact .cons (h.agree _ _ request) (ih (h.serve request) _ _)

end Alike

/-- An empty concurrent repository and an empty phased one with the same compiler answer any
requests alike, in whatever orders the concurrent one visits its rules: their answers agree but for
the order of what is listed. -/
theorem modes_agree (c : Compiler) (orders orders' : Nat → VisitOrder)
    (requests : List Request) :
    let concurrent := (empty .concurrent).withCompiler c
    let phased := (empty .phased).withCompiler c
    Agreement phased requests (concurrent.serveAllIn orders requests)
        (phased.serveAllIn orders' requests) ∧
      Agreement phased requests (concurrent.serveAll requests).1 (phased.serveAll requests).1 := by
  intro concurrent phased
  have halike : Alike concurrent phased := alike_empty c .concurrent .phased
  refine ⟨halike.agreement orders orders' requests, ?_⟩
  rw [← serveAllIn_listed, ← serveAllIn_listed]
  exact halike.agreement _ _ requests

end Repository

end RecordRules
