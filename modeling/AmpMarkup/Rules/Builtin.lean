import AmpMarkup.Rules.Builtin.Components
import AmpMarkup.Rules.Builtin.Content
import AmpMarkup.Rules.Builtin.Document
import AmpMarkup.Rules.Builtin.Graphics

/-! The built-in rules. -/

namespace AmpMarkup.Rules

/-- The rules in force where no others are given. -/
def builtin : RuleSet :=
  ⟨Builtin.attributeLists,
    Builtin.documentFrame ++ Builtin.metadata ++ Builtin.scripts ++ Builtin.styles ++
      Builtin.blocks ++ Builtin.interaction ++ Builtin.media ++ Builtin.services ++
      Builtin.graphics⟩

end AmpMarkup.Rules
