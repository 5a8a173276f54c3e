import Millwork.Calculation
import Millwork.Repository.Directory
/-!
# Sessions with a directory

What is done with an open directory, step after step, while its files may change at any time.
-/
namespace Millwork
/-- The files as they are now, and the repository that was opened on them. -/
structure Session where
  files : Files
  repository : DirectoryRepository

namespace Session
inductive Step
  /-- Files are written, removed or created in whatever way. -/
  | change (edit : Files → Files)
  | opening (path : String) (strategy : Strategy)
  | reload
  | invalidate
  | resolve (name : String)
  | calculate (options : Options) (order : Order)

/-- What a step answers. -/
inductive Answer
  | nothing
  /-- How many rule sets are remembered now. -/
  | size (count : Nat)
  | rules (rules : RuleSet)
  | calculation (calculation : Calculation)
  | failed (failure : ReadFailure)

def replaced (session : Session) (answer : DirectoryRepository → Answer) :
    Except ReadFailure DirectoryRepository → Answer × Session
  | .ok repository => (answer repository, { session with repository })
  | .error failure => (.failed failure, session)

def step (session : Session) : Step → Answer × Session
  | .change edit => (.nothing, { session with files := edit session.files })
  | .opening path strategy =>
    session.replaced (fun _ => .nothing) (DirectoryRepository.opened path strategy session.files)
  | .reload =>
    session.replaced (fun repository => .size repository.snapshot.size)
      (session.repository.reload session.files)
  | .invalidate => (.nothing, { session with repository := session.repository.invalidate })
  | .resolve name =>
    let found := session.repository.resolve session.files name
    (.rules found.1, { session with repository := found.2 })
  | .calculate options order =>
    let found := Calculation.run (fun repository key => repository.resolve session.files key)
      session.repository options order
    (.calculation found.1, { session with repository := found.2 })

def run (session : Session) (steps : List Step) : Session :=
  steps.foldl (fun session step => (session.step step).2) session

/-- The name of the rule set that a step asks for. -/
def Step.asked? : Step → Option String
  | .resolve name => some name
  | .calculate options order => some (options.keyFor order)
  | _ => none

/-- The answer of a step that asks for a rule set and gets these rules. -/
def Step.answerBy (rules : RuleSet) : Step → Answer
  | .resolve _ => .rules rules
  | .calculate options order =>
    .calculation (Calculation.ofRules (options.keyFor order) rules order)
  | _ => .nothing

/-- Whether a step makes the repository forget or read again what it has read. -/
def Step.refreshes : Step → Bool
  | .opening .. | .reload | .invalidate => true
  | .change _ | .resolve _ | .calculate .. => false

@[simp] theorem run_nil (session : Session) : session.run [] = session := rfl

@[simp] theorem run_cons (session : Session) (step : Step) (steps : List Step) :
    session.run (step :: steps) = (session.step step).2.run steps := rfl

end Session
end Millwork
