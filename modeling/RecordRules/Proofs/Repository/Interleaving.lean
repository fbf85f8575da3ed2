import Mathlib.Logic.Function.Basic
import RecordRules.Proofs.Repository.History
import RecordRules.Proofs.Repository.Modes

/-!
Clients that share a repository and take steps in any order.  A put is compiled in one step and
installed in a later one, and a removal is one step.  However the steps are interleaved, the store
is what the installs and removals make of an empty one, in the order in which they happened, and
clients that use different identifiers do not notice each other.
-/

namespace RecordRules

/-- A change that a client asks for. -/
inductive Update where
  | put (id text : String)
  | remove (id : String)

namespace Update

def id : Update → String
  | .put id _ => id
  | .remove id => id

def request : Update → Request
  | .put id text => .put id text
  | .remove id => .remove id

/-- What the update changes in a store.  A text that is rejected changes nothing. -/
def change? (c : Compiler) : Update → Option Change
  | .put id text =>
      match Rule.compile c id text with
      | .ok rule => some (.install rule)
      | .error _ => none
  | .remove id => some (.erase id)

theorem id_of_change? {u : Update} {c : Compiler} {change : Change}
    (h : u.change? c = some change) : change.id = u.id := by
  cases u with
  | put id text =>
      rw [change?] at h
      cases hcompile : Rule.compile c id text with
      | error rejection =>
          rw [hcompile] at h
          cases h
      | ok rule =>
          obtain ⟨p, -, rfl⟩ := (Rule.compile_eq_ok_iff ..).1 hcompile
          rw [hcompile] at h
          cases h
          rfl
  | remove id =>
      cases h
      rfl

end Update

/-- A client between two steps, with the updates that are still to begin.  It may hold a rule that
is compiled and not yet installed. -/
inductive Client where
  | resting (todo : List Update)
  | holding (rule : Rule) (todo : List Update)

namespace Client

def remaining : Client → List Update
  | .resting todo => todo
  | .holding rule todo => .put rule.id rule.source :: todo

/-- As many steps as the client may still need. -/
def work : Client → Nat
  | .resting todo => 2 * todo.length
  | .holding _ todo => 2 * todo.length + 1

theorem two_mul_length_remaining_le (client : Client) :
    2 * client.remaining.length ≤ client.work + 1 := by
  cases client with
  | resting todo => exact Nat.le_succ _
  | holding rule todo => exact Nat.le_refl _

/-- A rule that the client holds is what its text compiles to. -/
def Compiled (c : Compiler) : Client → Prop
  | .resting _ => True
  | .holding rule _ => Rule.compile c rule.id rule.source = .ok rule

end Client

/-- An update that is done: who asked for it, the answer, and what was changed. -/
structure Event (ι : Type) where
  client : ι
  update : Update
  answer : Answer
  change? : Option Change

/-- A repository with its clients, and what was done so far, the latest last. -/
structure Session (ι : Type) where
  repository : Repository
  clients : ι → Client
  log : List (Event ι)

/-- No two clients use a common identifier. -/
def Separate {ι : Type} (programs : ι → List Update) : Prop :=
  ∀ i j, i ≠ j → ∀ u ∈ programs i, ∀ v ∈ programs j, u.id ≠ v.id

namespace Session

variable {ι : Type} [DecidableEq ι]

def start (mode : Mode) (c : Compiler) (programs : ι → List Update) : Session ι :=
  ⟨(Repository.empty mode).withCompiler c, fun i => .resting (programs i), []⟩

def withClient (s : Session ι) (i : ι) (client : Client) : Session ι :=
  ⟨s.repository, Function.update s.clients i client, s.log⟩

/-- An update is done, and leaves this repository. -/
def close (s : Session ι) (event : Event ι) (todo : List Update) (repository : Repository) :
    Session ι :=
  ⟨repository, (s.withClient event.client (.resting todo)).clients, s.log ++ [event]⟩

def step (s : Session ι) (i : ι) : Session ι :=
  match s.clients i with
  | .resting [] => s
  | .resting (.put id text :: todo) =>
      match Rule.compile s.repository.compiler id text with
      | .error rejection =>
          s.close ⟨i, .put id text, .rejected rejection, none⟩ todo s.repository
      | .ok rule => s.withClient i (.holding rule todo)
  | .resting (.remove id :: todo) =>
      s.close ⟨i, .remove id, .present (s.repository.remove id).1, some (.erase id)⟩ todo
        (s.repository.remove id).2
  | .holding rule todo =>
      s.close ⟨i, .put rule.id rule.source, .stored, some (.install rule)⟩ todo
        ⟨s.repository.compiler, s.repository.store.install rule⟩

/-- Steps of the clients, in the order of the schedule. -/
def run (s : Session ι) (schedule : List ι) : Session ι :=
  schedule.foldl step s

def requests (s : Session ι) : List Request :=
  s.log.map (·.update.request)

def answers (s : Session ι) : List Answer :=
  s.log.map (·.answer)

def changes (s : Session ι) : List Change :=
  s.log.filterMap (·.change?)

def updatesOf (s : Session ι) (i : ι) : List Update :=
  (s.log.filter (·.client = i)).map (·.update)

def answersOf (s : Session ι) (i : ι) : List Answer :=
  (s.log.filter (·.client = i)).map (·.answer)

def Finished (s : Session ι) : Prop :=
  ∀ i, (s.clients i).remaining = []

end Session

/-! ### Updates as requests -/

namespace Repository

/-- A request for an update makes its change, if it makes one. -/
theorem serve_update_snd (r : Repository) (u : Update) :
    (r.serve u.request).2 = ⟨r.compiler, (u.change? r.compiler).elim r.store r.store.apply⟩ := by
  cases u with
  | put id text =>
      rw [Update.request, serve, put, Update.change?]
      cases Rule.compile r.compiler id text <;> rfl
  | remove id => rfl

namespace AlikeOn

variable {K : String → Prop} {r s : Repository} (h : AlikeOn K r s)

include h

/-- Where the same is found under its identifier, an update gets the same answer. -/
theorem serve_update_fst {u : Update} (hu : K u.id) :
    (r.serve u.request).1 = (s.serve u.request).1 := by
  cases u with
  | put id text => exact h.serve_put_fst id text
  | remove id => exact congrArg Answer.present (h.contains_eq hu)

/-- What is found under other identifiers is not changed by an update. -/
theorem serve_update_left {u : Update} (hu : ¬ K u.id) :
    AlikeOn K (r.serve u.request).2 s := by
  rw [serve_update_snd]
  cases hchange : u.change? r.compiler with
  | none => exact h
  | some change =>
      refine ⟨h.compiler_eq, h.coherent.apply change, h.coherent', ?_⟩
      intro id hid
      rw [← h.get?_eq id hid]
      apply h.coherent.get?_apply_of_ne
      rintro rfl
      rw [Update.id_of_change? hchange] at hid
      exact hu hid

/-- If all updates were answered in turn, and those under the identifiers in question are a part of
them, then this part alone gets the same answers, and leaves the same under these identifiers. -/
theorem serveAll_filter {ι : Type} (mine : Event ι → Bool) {log : List (Event ι)}
    (hmine : ∀ e ∈ log, mine e = true ↔ K e.update.id)
    (hanswers : (r.serveAll (log.map (·.update.request))).1 = log.map (·.answer)) :
    (s.serveAll ((log.filter mine).map (·.update.request))).1 =
        (log.filter mine).map (·.answer) ∧
      AlikeOn K (r.serveAll (log.map (·.update.request))).2
        (s.serveAll ((log.filter mine).map (·.update.request))).2 := by
  induction log generalizing r s with
  | nil => exact ⟨rfl, h⟩
  | cons e log ih =>
      rw [List.map_cons, List.map_cons, serveAll, List.cons.injEq] at hanswers
      have hrest := fun e' he' => hmine e' (List.mem_cons_of_mem e he')
      by_cases he : mine e = true
      · have hid : K e.update.id := (hmine e List.mem_cons_self).1 he
        obtain ⟨hfst, hsnd⟩ := ih (h.serve e.update.request) hrest hanswers.2
        rw [List.filter_cons_of_pos he, List.map_cons, List.map_cons, List.map_cons, serveAll,
          serveAll, hfst, ← h.serve_update_fst hid, hanswers.1]
        exact ⟨rfl, hsnd⟩
      · have hid : ¬ K e.update.id := fun hid => he ((hmine e List.mem_cons_self).2 hid)
        rw [List.filter_cons_of_neg he, List.map_cons, serveAll]
        exact ih (h.serve_update_left hid) hrest hanswers.2

end AlikeOn

end Repository

namespace Session

variable {ι : Type} [DecidableEq ι]

/-! ### One step -/

theorem withClient_eq_self (s : Session ι) (i : ι) : s.withClient i (s.clients i) = s := by
  rw [withClient, Function.update_eq_self]

theorem clients_withClient (s : Session ι) (i j : ι) (client : Client) :
    (s.withClient i client).clients j = if j = i then client else s.clients j :=
  Function.update_apply s.clients i client j

/-- The first update of a client is done as one request. -/
def complete (s : Session ι) (i : ι) (u : Update) (todo : List Update) : Session ι :=
  s.close ⟨i, u, (s.repository.serve u.request).1, u.change? s.repository.compiler⟩ todo
    (s.repository.serve u.request).2

/-- A step of a client is seen by nobody else, or does its first update as one request. -/
theorem step_cases {s : Session ι} {i : ι}
    (h : (s.clients i).Compiled s.repository.compiler) :
    (∃ client : Client, client.remaining = (s.clients i).remaining ∧
        client.Compiled s.repository.compiler ∧ client.work = (s.clients i).work - 1 ∧
        s.step i = s.withClient i client) ∨
      ∃ u todo, (s.clients i).remaining = u :: todo ∧ s.step i = s.complete i u todo := by
  cases hclient : s.clients i with
  | resting todo =>
      match todo with
      | [] =>
          refine .inl ⟨.resting [], rfl, trivial, rfl, ?_⟩
          rw [← hclient, withClient_eq_self, step, hclient]
      | .put id text :: todo =>
          cases hcompile : Rule.compile s.repository.compiler id text with
          | ok rule =>
              obtain ⟨p, -, rfl⟩ := (Rule.compile_eq_ok_iff ..).1 hcompile
              refine .inl ⟨.holding ⟨id, text, p⟩ todo, rfl, hcompile, ?_, ?_⟩
              · simp only [Client.work, List.length_cons]
                omega
              · rw [step, hclient]
                simp only [hcompile]
          | error rejection =>
              refine .inr ⟨.put id text, todo, rfl, ?_⟩
              rw [step, hclient]
              simp only [hcompile, complete, Update.request, Repository.serve, Repository.put,
                Update.change?]
      | .remove id :: todo =>
          refine .inr ⟨.remove id, todo, rfl, ?_⟩
          rw [step, hclient]
          rfl
  | holding rule todo =>
      rw [hclient, Client.Compiled] at h
      refine .inr ⟨.put rule.id rule.source, todo, rfl, ?_⟩
      rw [step, hclient]
      simp only [h, complete, Update.request, Repository.serve, Repository.put, Update.change?]

section Complete

variable (s : Session ι) (i j : ι) (u : Update) (todo : List Update)

theorem clients_complete :
    (s.complete i u todo).clients j = if j = i then .resting todo else s.clients j :=
  s.clients_withClient i j (.resting todo)

theorem requests_complete : (s.complete i u todo).requests = s.requests ++ [u.request] :=
  List.map_append

theorem answers_complete :
    (s.complete i u todo).answers = s.answers ++ [(s.repository.serve u.request).1] :=
  List.map_append

theorem changes_complete :
    (s.complete i u todo).changes = s.changes ++ (u.change? s.repository.compiler).toList := by
  rw [changes, complete, close, List.filterMap_append, List.filterMap_cons, List.filterMap_nil]
  cases u.change? s.repository.compiler <;> rfl

theorem updatesOf_complete :
    (s.complete i u todo).updatesOf j = s.updatesOf j ++ if j = i then [u] else [] := by
  rw [updatesOf, complete, close, List.filter_append, List.map_append]
  by_cases hj : j = i
  · simp [hj, updatesOf]
  · simp [hj, Ne.symm hj, updatesOf]

end Complete

/-- What holds of a session at any time: its repository is what the changes make of an empty one,
and it is as if the updates that are done had been requested one after the other. -/
structure Valid (mode : Mode) (c : Compiler) (programs : ι → List Update) (s : Session ι) :
    Prop where
  repository_eq : s.repository = ⟨c, .replay mode s.changes⟩
  compiled : ∀ i, (s.clients i).Compiled c
  program_eq : ∀ i, s.updatesOf i ++ (s.clients i).remaining = programs i
  change?_eq : ∀ e ∈ s.log, e.change? = e.update.change? c
  serveAll_eq : ((Repository.empty mode).withCompiler c).serveAll s.requests =
    (s.answers, s.repository)

theorem valid_start (mode : Mode) (c : Compiler) (programs : ι → List Update) :
    (start mode c programs).Valid mode c programs where
  repository_eq := rfl
  compiled _ := trivial
  program_eq _ := rfl
  change?_eq e he := by cases he
  serveAll_eq := rfl

namespace Valid

variable {mode : Mode} {c : Compiler} {programs : ι → List Update} {s : Session ι}
  (h : s.Valid mode c programs)

include h

theorem compiler_eq : s.repository.compiler = c := by
  rw [h.repository_eq]

theorem withClient {i : ι} {client : Client}
    (hremaining : client.remaining = (s.clients i).remaining) (hcompiled : client.Compiled c) :
    (s.withClient i client).Valid mode c programs where
  repository_eq := h.repository_eq
  compiled j := by
    rw [clients_withClient]
    split
    · exact hcompiled
    · exact h.compiled j
  program_eq j := by
    rw [clients_withClient, ← h.program_eq j]
    split
    · next hj =>
        rw [hremaining, hj]
        rfl
    · rfl
  change?_eq := h.change?_eq
  serveAll_eq := h.serveAll_eq

theorem complete {i : ι} {u : Update} {todo : List Update}
    (hremaining : (s.clients i).remaining = u :: todo) :
    (s.complete i u todo).Valid mode c programs where
  repository_eq := by
    rw [changes_complete, RuleStore.replay_append_toList, h.compiler_eq]
    refine (Repository.serve_update_snd ..).trans ?_
    rw [h.repository_eq]
  compiled j := by
    rw [clients_complete]
    split
    · trivial
    · exact h.compiled j
  program_eq j := by
    rw [updatesOf_complete, clients_complete, ← h.program_eq j, List.append_assoc]
    split
    · next hj =>
        rw [hj, hremaining]
        rfl
    · rfl
  change?_eq e he := by
    rw [Session.complete, close, List.mem_append, List.mem_singleton] at he
    rcases he with he | rfl
    · exact h.change?_eq e he
    · dsimp only
      rw [h.compiler_eq]
  serveAll_eq := by
    rw [requests_complete, Repository.serveAll_concat, h.serveAll_eq, answers_complete]
    rfl

theorem step (i : ι) : (s.step i).Valid mode c programs := by
  have hcompiled := h.compiled i
  rw [← h.compiler_eq] at hcompiled
  rcases step_cases hcompiled with ⟨client, hremaining, hclient, -, hstep⟩ |
    ⟨u, todo, hremaining, hstep⟩
  · rw [hstep]
    rw [h.compiler_eq] at hclient
    exact h.withClient hremaining hclient
  · rw [hstep]
    exact h.complete hremaining

theorem run (schedule : List ι) : (s.run schedule).Valid mode c programs := by
  induction schedule generalizing s with
  | nil => exact h
  | cons i schedule ih => exact ih (h.step i)

/-! ### The end of a session -/

theorem work_step_le (i j : ι) :
    ((s.step i).clients j).work ≤ (s.clients j).work - if j = i then 1 else 0 := by
  have hcompiled := h.compiled i
  rw [← h.compiler_eq] at hcompiled
  rcases step_cases hcompiled with ⟨client, -, -, hwork, hstep⟩ | ⟨u, todo, hremaining, hstep⟩
  · rw [hstep, clients_withClient]
    split
    · next hj => exact Nat.le_of_eq (by rw [hwork, hj])
    · exact Nat.le_refl _
  · rw [hstep, clients_complete]
    split
    · next hj =>
        have hlength := (s.clients i).two_mul_length_remaining_le
        rw [hremaining, List.length_cons] at hlength
        rw [Client.work, hj]
        omega
    · exact Nat.le_refl _

theorem work_run_le (schedule : List ι) (i : ι) :
    ((s.run schedule).clients i).work ≤ (s.clients i).work - schedule.count i := by
  induction schedule generalizing s with
  | nil => exact Nat.le_refl _
  | cons j schedule ih =>
      have hstep := h.work_step_le j i
      have hrun := ih (h.step j)
      rw [List.count_cons]
      simp only [beq_iff_eq, @eq_comm _ j]
      change (((s.step j).run schedule).clients i).work ≤ _
      omega

/-- Whoever has had two steps for each of its updates is done. -/
theorem finished_run {schedule : List ι}
    (hschedule : ∀ i, (s.clients i).work ≤ schedule.count i) : (s.run schedule).Finished := by
  intro i
  have hwork := h.work_run_le schedule i
  have hlength := ((s.run schedule).clients i).two_mul_length_remaining_le
  have hcount := hschedule i
  apply List.length_eq_zero_iff.1
  omega

/-! ### Clients that use different identifiers -/

theorem update_mem {e : Event ι} (he : e ∈ s.log) : e.update ∈ programs e.client := by
  rw [← h.program_eq e.client]
  apply List.mem_append_left
  exact List.mem_map_of_mem (List.mem_filter.2 ⟨he, decide_eq_true rfl⟩)

/-- A part of the updates that are done, the only one under the identifiers in question, has got the
answers that it would get alone, and what is found there is its work alone. -/
theorem filter_alone (K : String → Prop) (mine : Event ι → Bool)
    (hmine : ∀ e ∈ s.log, mine e = true ↔ K e.update.id) :
    let alone := ((Repository.empty mode).withCompiler c).serveAll
      ((s.log.filter mine).map (·.update.request))
    alone.1 = (s.log.filter mine).map (·.answer) ∧
      ∀ id, K id → s.repository.get? id = alone.2.get? id := by
  have hstart : Repository.AlikeOn K ((Repository.empty mode).withCompiler c)
      ((Repository.empty mode).withCompiler c) :=
    ⟨rfl, RuleStore.coherent_empty mode, RuleStore.coherent_empty mode, fun _ _ => rfl⟩
  obtain ⟨hanswers, halike⟩ :=
    hstart.serveAll_filter mine hmine (congrArg Prod.fst h.serveAll_eq)
  refine ⟨hanswers, ?_⟩
  intro id hid
  rw [← halike.get?_eq id hid]
  exact congrArg (fun p => p.2.get? id) h.serveAll_eq.symm

/-- A client that is done has got the answers of its program alone, and has left the same. -/
theorem client_alone (hseparate : Separate programs) (hfinished : s.Finished) (i : ι) :
    let alone := ((Repository.empty mode).withCompiler c).serveAll
      ((programs i).map Update.request)
    s.answersOf i = alone.1 ∧
      ∀ u ∈ programs i, s.repository.get? u.id = alone.2.get? u.id := by
  have hprogram : s.updatesOf i = programs i := by
    rw [← h.program_eq i, hfinished i, List.append_nil]
  have hmine : ∀ e ∈ s.log,
      decide (e.client = i) = true ↔ ∃ u ∈ programs i, u.id = e.update.id := by
    intro e he
    rw [decide_eq_true_iff]
    constructor
    · rintro rfl
      exact ⟨e.update, h.update_mem he, rfl⟩
    · rintro ⟨u, hu, hid⟩
      by_contra hclient
      exact hseparate e.client i hclient _ (h.update_mem he) u hu hid.symm
  obtain ⟨hanswers, hget⟩ := h.filter_alone
    (fun id => ∃ u ∈ programs i, u.id = id) (fun e => decide (e.client = i)) hmine
  rw [← hprogram, updatesOf, List.map_map]
  refine ⟨hanswers.symm, ?_⟩
  intro u hu
  exact hget u.id ⟨u, by rwa [← hprogram, updatesOf], rfl⟩

/-- Under an identifier that no client uses nothing is found. -/
theorem get?_of_unused {id : String} (hid : ∀ i, ∀ u ∈ programs i, u.id ≠ id) :
    s.repository.get? id = none := by
  have hmine : ∀ e ∈ s.log, false = true ↔ e.update.id = id := by
    intro e he
    simp [hid e.client e.update (h.update_mem he)]
  rw [(h.filter_alone (· = id) (fun _ => false) hmine).2 id rfl, List.filter_false]
  exact RuleStore.get?_empty mode id

/-- Two sessions that are done are alike, and each client has got the same answers. -/
theorem alike {t : Session ι} (ht : t.Valid mode c programs) (hseparate : Separate programs)
    (hs : s.Finished) (hfinished : t.Finished) :
    s.repository.Alike t.repository ∧ ∀ i, s.answersOf i = t.answersOf i := by
  have hcoherent : ∀ {s : Session ι}, s.Valid mode c programs → s.repository.store.Coherent := by
    intro s h
    rw [h.repository_eq]
    exact RuleStore.coherent_replay mode s.changes
  refine ⟨⟨h.compiler_eq.trans ht.compiler_eq.symm, hcoherent h, hcoherent ht, ?_⟩, ?_⟩
  · intro id _
    by_cases hused : ∃ i, ∃ u ∈ programs i, u.id = id
    · obtain ⟨i, u, hu, rfl⟩ := hused
      rw [(h.client_alone hseparate hs i).2 u hu, (ht.client_alone hseparate hfinished i).2 u hu]
    · have hunused : ∀ i, ∀ u ∈ programs i, u.id ≠ id :=
        fun i u hu hid => hused ⟨i, u, hu, hid⟩
      rw [h.get?_of_unused hunused, ht.get?_of_unused hunused]
  · intro i
    rw [(h.client_alone hseparate hs i).1, (ht.client_alone hseparate hfinished i).1]

end Valid

/-- However the steps of clients are interleaved, their updates are done in the order of their
programs, as if requested one after the other; what is found under an identifier is the rule of the
last install there, if it was not removed since; no identifier occurs twice, and a phased repository
lists them in the order in which they came to stay.  Clients that use different identifiers leave
the same rules and get the same answers in every interleaving that ends. -/
theorem last_write_wins (mode : Mode) (c : Compiler) (programs : ι → List Update)
    (schedule : List ι) :
    let s := (start mode c programs).run schedule
    (∀ i, s.updatesOf i ++ (s.clients i).remaining = programs i) ∧
      (∀ e ∈ s.log, e.change? = e.update.change? c) ∧
      ((Repository.empty mode).withCompiler c).serveAll s.requests = (s.answers, s.repository) ∧
      s.repository = ⟨c, .replay mode s.changes⟩ ∧
      (∀ id rule, s.repository.get? id = some rule ↔ LastInstall s.changes id rule) ∧
      s.repository.ids.Nodup ∧
      (∀ id, id ∈ s.repository.ids ↔ ∃ place, ArrivesAt s.changes id place) ∧
      (mode = .phased → s.repository.ids.Pairwise fun a b =>
        ∀ i j, ArrivesAt s.changes a i → ArrivesAt s.changes b j → i < j) ∧
      ((∀ i, 2 * (programs i).length ≤ schedule.count i) → s.Finished) ∧
      (Separate programs → s.Finished → ∀ schedule' : List ι,
        let t := (start mode c programs).run schedule'
        t.Finished →
          (∀ id, s.repository.get? id = t.repository.get? id) ∧
            s.repository.size = t.repository.size ∧ ∀ i, s.answersOf i = t.answersOf i) := by
  intro s
  have hstart := valid_start mode c programs
  have h : s.Valid mode c programs := hstart.run schedule
  refine ⟨h.program_eq, h.change?_eq, h.serveAll_eq, h.repository_eq, ?_, ?_, ?_, ?_,
    hstart.finished_run, ?_⟩
  · intro id rule
    rw [h.repository_eq]
    exact RuleStore.get?_replay_eq_some_iff mode s.changes id rule
  · rw [h.repository_eq]
    exact (RuleStore.coherent_replay mode s.changes).nodup_ids
  · intro id
    rw [h.repository_eq]
    exact RuleStore.mem_ids_replay_iff mode s.changes id
  · rintro rfl
    rw [h.repository_eq]
    exact RuleStore.pairwise_ids_replay s.changes
  · intro hseparate hs schedule' t ht
    obtain ⟨halike, hanswers⟩ := h.alike (hstart.run schedule') hseparate hs ht
    exact ⟨fun id => halike.get?_eq id trivial, halike.size_eq, hanswers⟩

/-- Two clients, one after the other and in turns, with texts that are rejected and rules that are
removed. -/
theorem last_write_wins_two_clients :
    let programs : Bool → List Update := fun
      | true => [.put "vip" "is_vip", .put "vip" "is_vip and", .remove "prod"]
      | false => [.put "risky" "blacklisted", .remove "risky", .put "risky" "not is_vip"]
    let s := (start .phased .untyped programs).run
      (List.replicate 6 true ++ List.replicate 6 false)
    let t := (start .phased .untyped programs).run
      ((List.replicate 6 [true, false]).flatten)
    Separate programs ∧ s.Finished ∧ t.Finished ∧
      (s.repository.ids.Pairwise fun a b =>
        ∀ i j, ArrivesAt s.changes a i → ArrivesAt s.changes b j → i < j) ∧
      (∀ id, s.repository.get? id = t.repository.get? id) ∧
        s.repository.size = t.repository.size ∧ ∀ i, s.answersOf i = t.answersOf i := by
  intro programs s t
  have hseparate : Separate programs := by
    unfold Separate
    decide
  obtain ⟨-, -, -, -, -, -, -, hordered, hends, hsame⟩ := last_write_wins .phased .untyped programs
    (List.replicate 6 true ++ List.replicate 6 false)
  obtain ⟨-, -, -, -, -, -, -, -, hends', -⟩ := last_write_wins .phased .untyped programs
    (List.replicate 6 [true, false]).flatten
  have hs : s.Finished := hends (by decide)
  have ht : t.Finished := hends' (by decide)
  exact ⟨hseparate, hs, ht, hordered rfl, hsame hseparate hs _ ht⟩

end Session

end RecordRules
