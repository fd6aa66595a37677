import UtilityCss.Generator.Cascade
import UtilityCss.Generator.LiteralClass
import UtilityCss.Generator.ModifiedClass
import UtilityCss.Name.Map
import UtilityCss.Theme.Resolution
import UtilityCss.Theme.Stylesheet

/-!
# The generator

A batch of class names becomes one style sheet. Registered classes come first, in the order of the
registry, then the interpreted ones in cascade order. A class that fails has diagnostics and no
text, and leaves the others as they are. Only a class for which an interpreter has no answer has an
influence on the others: it stops the program, and the whole batch is without a result.
-/

namespace UtilityCss

open Text Css

def Interpreter.standard : List Interpreter :=
  [literalClass, modifiedClass]

structure Generator where
  registry : Registry
  interpreters : List Interpreter
  known : KnownProperties
  config : Config := {}
  /-- The classes that were declared on purpose. -/
  explicit : NameSet := .empty
  /-- Where class names were found. -/
  locations : NameMap (List Location) := .empty

namespace Generator

structure Outcome where
  css : Option Text
  diagnostics : List Diagnostic

/-- Style sheet text for a batch, and all that is to say about it. -/
structure Result where
  css : Text
  diagnostics : List Diagnostic

namespace Result

def errors (r : Result) : List Diagnostic :=
  r.diagnostics.filter Diagnostic.isError

def warnings (r : Result) : List Diagnostic :=
  r.diagnostics.filter (!·.isError)

def hasErrors (r : Result) : Bool :=
  r.diagnostics.any Diagnostic.isError

/-- The theme variables that the text refers to. -/
def references (r : Result) : NameSet :=
  Theme.references r.css

end Result

/-! ## Registered classes -/

/-- The rule of a class with the given declarations; without any there is none. -/
def plainRule? (name declarations : Text) : Option Text :=
  if declarations.isEmpty then none else some (block (classSelector name) declarations)

/-- The text of a definition without its comment. -/
def body (g : Generator) (name : Text) (d : Definition) : Outcome :=
  match d.body with
  | .ruleset css =>
      match Ruleset.check name css with
      | .error problem => ⟨none, [.error name problem.message problem.suggestion]⟩
      | .ok ruleset => ⟨some (trim css), (ruleset.simplification? name).toList⟩
  | .declaration css => ⟨plainRule? name (trim css), []⟩
  | _ =>
      match g.registry.flatten name with
      | .error e => ⟨none, [.error name e.message e.suggestion]⟩
      | .ok css => ⟨plainRule? name css, []⟩

/-- Puts the comment of a definition above its text. -/
def withComment (config : Config) (d : Definition) (css : Text) : Text :=
  match d.comment with
  | some t => if config.emitComments then comment t ++ '\n' :: css else css
  | none => css

def define (g : Generator) (name : Text) (d : Definition) : Outcome :=
  let outcome := g.body name d
  { outcome with css := outcome.css.map (withComment g.config d) }

/-! ## Other classes -/

def context (g : Generator) (name : Text) : Context where
  registry := g.registry
  known := g.known
  config := g.config
  isExplicit := name ∈ g.explicit

/-- What the interpreters say, up to the first that decides. -/
def firstDecision (context : Context) (name : Text) : List Interpreter → Option Interpretation
  | [] => some .pass
  | i :: rest =>
      if !i.accepts name then firstDecision context name rest
      else
        (i.interpret context name).bind fun said =>
          match said.css with
          | some _ => some said
          | none =>
              (firstDecision context name rest).map fun later =>
                { later with diagnostics := said.diagnostics ++ later.diagnostics }

/-- The error for an explicit class that nothing defines. -/
def undefinedError (g : Generator) (name : Text) : Diagnostic :=
  .error name "No matching class definition".toList
    ((closest name g.registry.names).map didYouMean)

/-- Adds that error to what was said of an explicit class, where nothing decides it or says what is
wrong with it. -/
def conclude (g : Generator) (name : Text) (said : Interpretation) : Outcome :=
  if said.css.isNone ∧ name ∈ g.explicit ∧ !(said.diagnostics.any Diagnostic.isError) then
    ⟨none, said.diagnostics ++ [g.undefinedError name]⟩
  else ⟨said.css, said.diagnostics⟩

def interpret (g : Generator) (name : Text) : Option Outcome :=
  (firstDecision (g.context name) name g.interpreters).map (g.conclude name)

/-! ## Batches -/

/-- Adds the places of a class to its diagnostics, where they are known. -/
def locate (g : Generator) (name : Text) (d : Diagnostic) : Diagnostic :=
  match g.locations.get? name with
  | some places => { d with locations := some places }
  | none => d

def outcome (g : Generator) (name : Text) : Option Outcome :=
  let outcome :=
    match g.registry.get? name with
    | some d => some (g.define name d)
    | none => g.interpret name
  outcome.map fun o => { o with diagnostics := o.diagnostics.map (g.locate name) }

/-- Puts registered names in the order of the registry and the others in cascade order. -/
def emissionOrder (g : Generator) (names : List Text) : List Text :=
  g.registry.names.filter (fun name => name ∈ names) ++
    CascadeKey.sortNames (names.filter fun name => !g.registry.contains name)

def generate (g : Generator) (batch : List Text) : Option Result :=
  let names := (NameSet.ofList (batch.filter (!·.isEmpty))).toList
  let outcomes := names.mapM fun name => (g.outcome name).map fun o => (name, o)
  outcomes.map fun outcomes =>
    let texts := (g.emissionOrder names).filterMap fun name => (outcomes.lookup name).bind (·.css)
    { css := join ['\n', '\n'] (texts.filter (!·.isEmpty)),
      diagnostics := outcomes.flatMap fun (_, o) => o.diagnostics }

def theme (g : Generator) (r : Result) (graph : Theme.Graph) :
    Theme.Stylesheet × Theme.Resolution :=
  let resolution := graph.resolve r.references.toList
  (graph.stylesheet resolution.resolved.toList g.config.themeSpecificity, resolution)

end Generator

end UtilityCss
