import RecordRules.Repository.Store
import RecordRules.Repository.Survey

/-!
Repositories of compiled rules.  What a repository says about its rules is read off one list,
its snapshot.
-/

namespace RecordRules

/-- Stored rules, with the compiler that accepts further ones. -/
structure Repository where
  compiler : Compiler
  store : RuleStore

namespace Repository

def empty (mode : Mode) : Repository :=
  ⟨.untyped, .empty mode⟩

def withCompiler (r : Repository) (c : Compiler) : Repository :=
  ⟨c, r.store⟩

def mode (r : Repository) : Mode :=
  r.store.mode

/-- Compiles a text and stores the rule under the identifier. -/
def put (r : Repository) (id text : String) : Except Rejection Repository :=
  match Rule.compile r.compiler id text with
  | .error rejection => .error rejection
  | .ok rule => .ok ⟨r.compiler, r.store.install rule⟩

/-- Removes the rule of an identifier, and says whether there was one. -/
def remove (r : Repository) (id : String) : Bool × Repository :=
  (r.store.contains id, ⟨r.compiler, r.store.erase id⟩)

def get? (r : Repository) (id : String) : Option Rule :=
  r.store.get? id

def contains (r : Repository) (id : String) : Bool :=
  r.store.contains id

def size (r : Repository) : Nat :=
  r.store.size

def isEmpty (r : Repository) : Bool :=
  r.size == 0

/-- The rules as they are now, in the order in which they are visited. -/
def snapshot (r : Repository) : List Rule :=
  r.store.toList

def ids (r : Repository) : List String :=
  r.snapshot.map (·.id)

/-- Shows rules to a visitor, up to the first for which it answers false. -/
def visitWhile {m : Type → Type} [Monad m] (visit : Rule → m Bool) : List Rule → m Unit
  | [] => pure ()
  | rule :: rules => do
      if ← visit rule then
        visitWhile visit rules

/-- Shows the rules to a visitor, up to the first for which it answers false. -/
def forEach {m : Type → Type} [Monad m] (r : Repository) (visit : Rule → m Bool) : m Unit :=
  visitWhile visit r.snapshot

/-- The identifiers of the rules that hold on a record. -/
def hits (r : Repository) (record : Record) : List String :=
  (r.snapshot.filter (·.holdsOn record)).map (·.id)

def survey (r : Repository) (record : Record) : Survey :=
  .ofRules record r.snapshot

def summary (r : Repository) : String :=
  s!"RuleRepository({r.size} rules, {r.mode.label})"

end Repository

end RecordRules
