import WhereRules.Proofs.Grammar.Levels

/-!
# The reader finds every derivation

Each reader of `Expr.Parser` reads what the grammar derives for its phrase, and stops right behind
it (`Derives.reads`). Two things are asked of the surroundings: the tokens that follow must not
continue the phrase (`Phrase.stops`), and the room must be no smaller than the phrase is long, which
is more than enough because every level that is taken is opened by a token of its own.
-/

namespace WhereRules.Expr

/-- A reader reads the tokens as the tree wherever the phrase stops behind them. -/
def Reads (reader : Nat → List Placed → Except Stuck (Expr × List Placed)) (phrase : Phrase)
    (ts : List Token) (e : Expr) : Prop :=
  ∀ (ps rest : List Placed) (room : Nat), words ps = ts → ts.length ≤ room → phrase.stops rest →
    reader room (ps ++ rest) = .ok (e, rest)

/-- **The reader of a phrase reads every derivation of it**, and leaves what follows. The counts of
the derivation are within the room, since they are no larger than there are tokens. -/
theorem Derives.reads {phrase : Phrase} {ts : List Token} {e : Expr} (h : Derives phrase ts e) :
    Reads phrase.reader phrase ts e := by
  obtain ⟨lts, rfl, hlts⟩ := h.leveled
  intro ps rest room hps hroom hstops
  rw [Counted.plain, List.length_map] at hroom
  have hlevel : lts.level ≤ room := Nat.le_trans hlts.level_le_length hroom
  rw [hlts.answers ps rest room hps hstops, Counted.overflow?_eq_none.mpr hlevel]
  rfl

end WhereRules.Expr
