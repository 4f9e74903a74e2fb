import AmpMarkup.Validation.Evaluation

/-! The choice of the specification for an element. Dispatch keys narrow the candidates down, and of
those left the one with the fewest findings is chosen, the first of them if there are several. -/

namespace AmpMarkup.Validation

open Rules

/-- A specification with its identifier. -/
abbrev Candidate := SpecId × CompiledSpec

namespace Context

/-- The specifications for the tag of an element that apply to the format. -/
def candidates (c : Context) (s : Subject) : List Candidate :=
  (c.repository.specsFor s.tag).filter fun (_, spec) => spec.spec.appliesTo c.options.format

/-- The rank of a specification's dispatch key if the element satisfies it. -/
def dispatchRank? (c : Context) (s : Subject) (spec : TagSpec) : Option Nat :=
  match spec.dispatch? with
  | none => none
  | some (declared, key) =>
    match s.attribute? declared.name with
    | none => none
    | some a =>
      let valueMatches := declared.value.all (·.contains a.value)
      let satisfied := match key with
        | .name => true
        | .nameValue => valueMatches
        | .nameValueParent =>
          valueMatches && spec.mandatoryParent.all (c.parentMatches s.node)
      if satisfied then some key.rank else none

/-- The candidates whose dispatch key has the highest rank of those that are satisfied, or all of
them if none is. -/
def pool (c : Context) (s : Subject) (candidates : List Candidate) : List Candidate :=
  match (candidates.filterMap fun e => c.dispatchRank? s e.2.spec).max? with
  | none => candidates
  | some top => candidates.filter fun e => c.dispatchRank? s e.2.spec == some top

end Context

/-- The first of the entries with the fewest items. -/
def fewest? : List (α × List β) → Option (α × List β)
  | [] => none
  | x :: xs =>
    match fewest? xs with
    | none => some x
    | some y => if y.2.length < x.2.length then some y else some x

/-- The specification chosen for an element, with everything that is wrong under it. Without
candidates there is none. -/
def Context.choose? (c : Context) (s : Subject) : Option (Candidate × List Cause) :=
  fewest? ((c.pool s (c.candidates s)).map fun e => (e, c.evaluate s e.1 e.2))

end AmpMarkup.Validation
