import WhereRules.Pattern.Reader
import WhereRules.Pattern.Limits

/-!
# Patterns

A pattern is the text of a regular expression that can be read and is within the limits, with what
it reads as. Two patterns are the same when their texts are: another spelling of one expression is
another pattern.
-/

namespace WhereRules

structure Pattern where
  source : String
  regex : Regex
  /-- The expression is the one that the text spells. -/
  spells : Regex.ofText? source = some regex
  fits : regex.fits = true

namespace Pattern

/-- The pattern of a text, unless the text spells no expression or one that is beyond the limits. -/
def ofText? (source : String) : Option Pattern :=
  match spells : Regex.ofText? source with
  | some regex => if fits : regex.fits = true then some ⟨source, regex, spells, fits⟩ else none
  | none => none

/-- Whether a text holds the pattern anywhere. -/
def isFoundIn (pattern : Pattern) (text : String) : Bool := pattern.regex.isFoundIn text.toList

theorem ext_source {p q : Pattern} (h : p.source = q.source) : p = q := by
  obtain ⟨s, r, hr, _⟩ := p
  obtain ⟨t, u, hu, _⟩ := q
  subst h
  have : some r = some u := hr.symm.trans hu
  cases this
  rfl

instance : DecidableEq Pattern := fun p q =>
  if h : p.source = q.source then isTrue (ext_source h)
  else isFalse fun e => h (congrArg source e)

end Pattern

end WhereRules
