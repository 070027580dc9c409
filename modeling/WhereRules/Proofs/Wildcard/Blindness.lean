import WhereRules.Predicate.Evaluation
import WhereRules.Proofs.Compilation.Steps
import WhereRules.Proofs.Reading.Get
import WhereRules.Proofs.Wildcard.Faithful

/-!
# Which characters a wildcard covers

Two texts that differ only where neither has a character of the wildcard text cannot be told apart by
the characters that stand for themselves, so only the wildcards can tell them apart. A wildcard looks
at one thing, whether a character is a line feed. Where line feeds stand in the same places, a
condition decides the same about both texts; and it does so wherever they stand exactly when it has
no wildcard or no line feed can come into play (`Predicate.decidesAlike_iff`).
-/

namespace WhereRules

namespace Like

/-! ## Exchanging characters -/

/-- Two characters that a wildcard text knows nothing of, or one and the same. -/
def Exchanged (like : String) (c d : Char) : Prop :=
  c = d ∨ (c ∉ like.toList ∧ d ∉ like.toList)

/-- Two characters that are both a line feed, or neither is. -/
def SameLine (c d : Char) : Prop := c = '\n' ↔ d = '\n'

/-- Two texts with characters in the same places that stand in a relation. -/
def Alike (R : Char → Char → Prop) (t t' : String) : Prop := List.Forall₂ R t.toList t'.toList

/-- Whether no part of a wildcard text is a wildcard. -/
def Fixed (like : String) : Prop := ∀ part ∈ parts like.toList, part.isWildcard = false

/-- A character that stands for itself is one of the wildcard text. So exchanging characters that
the text does not have leaves it alone. -/
theorem mem_of_exactly_mem_parts {c : Char} {cs : List Char} (h : .exactly c ∈ parts cs) :
    c ∈ cs := by
  fun_induction parts cs with
  | case1 => cases h
  | case2 cs ih | case3 cs ih =>
    rcases List.mem_cons.mp h with heq | h
    · cases heq
      exact List.mem_cons_of_mem _ List.mem_cons_self
    · exact List.mem_cons_of_mem _ (List.mem_cons_of_mem _ (ih h))
  | case4 cs ih | case5 cs ih =>
    rcases List.mem_cons.mp h with heq | h
    · cases heq
    · exact List.mem_cons_of_mem _ (ih h)
  | case6 d cs _ _ _ _ ih =>
    rcases List.mem_cons.mp h with heq | h
    · cases heq
      exact List.mem_cons_self
    · exact List.mem_cons_of_mem _ (ih h)

section Exchange

variable {R : Char → Char → Prop}

/-- A piece still fits its part when characters are exchanged that the part does not tell apart:
none for a character that stands for itself, and line feeds only for a wildcard. -/
theorem Part.StandsFor.exchange {part : Part} {piece piece' : List Char}
    (hexact : ∀ c d, part = .exactly c → R c d → d = c)
    (hline : part.isWildcard = true → ∀ c d, R c d → c ≠ '\n' → d ≠ '\n')
    (h : part.StandsFor piece) (hR : List.Forall₂ R piece piece') : part.StandsFor piece' := by
  cases h with
  | exactly c =>
    obtain ⟨d, _, hcd, hnil, rfl⟩ := List.forall₂_cons_left_iff.mp hR
    cases hnil
    rw [hexact c d rfl hcd]
    exact .exactly c
  | one hc =>
    obtain ⟨d, _, hcd, hnil, rfl⟩ := List.forall₂_cons_left_iff.mp hR
    cases hnil
    exact .one (hline rfl _ d hcd hc)
  | run hpiece =>
    refine .run fun hmem => ?_
    obtain ⟨c, hc, hcd⟩ := exists_of_forall₂_mem hR hmem
    exact hline rfl c _ hcd (fun heq => hpiece (heq ▸ hc)) rfl

/-- And so does a text that is cut into pieces. The cuts stay where they are, for the places stay.
-/
theorem Cut.exchange {ps : List Part} (hexact : ∀ c d, .exactly c ∈ ps → R c d → d = c)
    (hline : (∃ part ∈ ps, part.isWildcard = true) → ∀ c d, R c d → c ≠ '\n' → d ≠ '\n')
    {cs ds : List Char} (h : Cut ps cs) (hR : List.Forall₂ R cs ds) : Cut ps ds := by
  induction ps generalizing cs ds with
  | nil =>
    obtain rfl := cut_nil.mp h
    obtain rfl := List.forall₂_nil_left_iff.mp hR
    exact h
  | cons part ps ih =>
    obtain ⟨piece, rest, hpiece, hrest, rfl⟩ := cut_cons.mp h
    refine cut_cons.mpr ⟨ds.take piece.length, ds.drop piece.length, ?_, ?_, List.take_append_drop _ _⟩
    · have htake := List.forall₂_take piece.length hR
      rw [List.take_left] at htake
      refine hpiece.exchange (fun c d heq => ?_) (fun hwild => ?_) htake
      · exact hexact c d (heq ▸ List.mem_cons_self)
      · exact hline ⟨part, List.mem_cons_self, hwild⟩
    · have hdrop := List.forall₂_drop piece.length hR
      rw [List.drop_left] at hdrop
      refine ih (fun c d hmem => ?_) (fun hwild => ?_) hrest hdrop
      · exact hexact c d (List.mem_cons_of_mem _ hmem)
      · obtain ⟨other, hmem, hwild⟩ := hwild
        exact hline ⟨other, List.mem_cons_of_mem _ hmem, hwild⟩

/-- Exchanged characters are told apart by nothing but line feeds, and those by wildcards only. The
cut of the one text is a cut of the other. -/
theorem admits_of_alike {like t t' : String} (hexchanged : ∀ c d, R c d → Exchanged like c d)
    (hline : Fixed like ∨ ∀ c d, R c d → SameLine c d) (hR : Alike R t t')
    (h : admits like t = true) : admits like t' = true := by
  refine covers_iff.mpr (Cut.exchange (fun c d hmem hcd => ?_) (fun hwild c d hcd => ?_)
    (covers_iff.mp h) hR)
  · rcases hexchanged c d hcd with rfl | ⟨hc, _⟩
    · rfl
    · exact absurd (mem_of_exactly_mem_parts hmem) hc
  · obtain ⟨part, hmem, hwild⟩ := hwild
    rcases hline with hfixed | hline
    · rw [hfixed part hmem] at hwild
      cases hwild
    · exact (not_congr (hline c d hcd)).mp

end Exchange

/-- Exchanging goes both ways. -/
theorem Exchanged.symm {like : String} {c d : Char} (h : Exchanged like c d) :
    Exchanged like d c := by
  rcases h with rfl | ⟨hc, hd⟩
  · exact .inl rfl
  · exact .inr ⟨hd, hc⟩

/-- The two texts are admitted alike, since what is exchanged can be exchanged back. -/
theorem admits_eq_of_alike {like t t' : String} {R : Char → Char → Prop}
    (hexchanged : ∀ c d, R c d → Exchanged like c d)
    (hline : Fixed like ∨ ∀ c d, R c d → SameLine c d) (hR : Alike R t t') :
    admits like t = admits like t' := by
  have hback : Alike (flip R) t' t := hR.flip
  rw [Bool.eq_iff_iff]
  constructor
  · exact admits_of_alike hexchanged hline hR
  · refine admits_of_alike (fun c d hcd => (hexchanged d c hcd).symm) ?_ hback
    exact hline.imp_right fun hline c d hcd => (hline d c hcd).symm

/-! ## Telling line feeds apart -/

/-- One character that a part may stand for: a wildcard leaves the choice. -/
def Part.filled (filler : Char) : Part → Char
  | exactly c => c
  | one | run => filler

/-- Any character but a line feed can stand for each wildcard, and nothing more is needed to fill a
wildcard text. -/
theorem cut_filled {filler : Char} (h : filler ≠ '\n') (ps : List Part) :
    Cut ps (ps.map (Part.filled filler)) := by
  induction ps with
  | nil => exact cut_nil.mpr rfl
  | cons part ps ih =>
    refine cut_cons.mpr ⟨[part.filled filler], _, ?_, ih, rfl⟩
    cases part with
    | exactly c => exact .exactly c
    | one => exact .one h
    | run => exact .run (fun hmem => h (List.mem_singleton.mp hmem).symm)

/-- There is a line feed in what is described only if the wildcard text has one. -/
theorem notMem_of_cut {ps : List Part} {cs : List Char} (hline : .exactly '\n' ∉ ps)
    (h : Cut ps cs) : '\n' ∉ cs := by
  obtain ⟨pieces, hpieces, rfl⟩ := h
  intro hmem
  obtain ⟨piece, hpiece, hmem⟩ := List.mem_flatten.mp hmem
  obtain ⟨part, hpart, hstands⟩ := exists_of_forall₂_mem hpieces hpiece
  cases hstands with
  | exactly c =>
    rw [← List.mem_singleton.mp hmem] at hpart
    exact hline hpart
  | one hc => exact hc (List.mem_singleton.mp hmem).symm
  | run hpiece => exact hpiece hmem

/-- A line feed in the place of another character is noticed by a wildcard. The two texts are the
wildcard text filled with that character, and filled with line feeds. -/
theorem not_fixed_tells {like : String} {d : Char} (hfixed : ¬Fixed like)
    (hline : '\n' ∉ like.toList) (hd : d ∉ like.toList) (hne : d ≠ '\n') :
    ∃ t t', Alike (Exchanged like) t t' ∧ admits like t = true ∧ admits like t' = false := by
  let ps := parts like.toList
  refine ⟨String.ofList (ps.map (Part.filled d)), String.ofList (ps.map (Part.filled '\n')), ?_,
    ?_, ?_⟩
  · rw [Alike, String.toList_ofList, String.toList_ofList, List.forall₂_map_left_iff,
      List.forall₂_map_right_iff, List.forall₂_same]
    rintro (c | _ | _) -
    · exact .inl rfl
    · exact .inr ⟨hd, hline⟩
    · exact .inr ⟨hd, hline⟩
  · rw [admits, String.toList_ofList, covers_iff]
    exact cut_filled hne ps
  · rw [Bool.eq_false_iff, admits, String.toList_ofList, Ne, covers_iff]
    intro hcut
    obtain ⟨part, hpart, hwild⟩ : ∃ part ∈ ps, part.isWildcard = true := by
      simpa [Fixed] using hfixed
    refine notMem_of_cut (fun hmem => hline (mem_of_exactly_mem_parts hmem)) hcut ?_
    refine List.mem_map.mpr ⟨part, hpart, ?_⟩
    cases part with
    | exactly _ => cases hwild
    | one | run => rfl

/-- **A wildcard text tells apart two texts that differ only in characters it knows nothing of just
when it has a wildcard and one of these characters is a line feed.** -/
theorem admits_blind_iff (like : String) :
    (∀ t t', Alike (Exchanged like) t t' → admits like t = admits like t') ↔
      Fixed like ∨ ∀ c d, c ∉ like.toList → d ∉ like.toList → SameLine c d := by
  constructor
  · intro hblind
    refine or_iff_not_imp_left.mpr fun hfixed => ?_
    have hnone : ∀ d, '\n' ∉ like.toList → d ∉ like.toList → d = '\n' := by
      intro d hline hd
      by_contra hne
      obtain ⟨t, t', halike, ht, ht'⟩ := not_fixed_tells hfixed hline hd hne
      rw [hblind t t' halike, ht'] at ht
      cases ht
    intro c d hc hd
    constructor
    · rintro rfl
      exact hnone d hc hd
    · rintro rfl
      exact hnone c hd hc
  · intro h t t' halike
    refine admits_eq_of_alike (fun _ _ hcd => hcd) (h.imp_right fun hline c d hcd => ?_) halike
    rcases hcd with rfl | ⟨hc, hd⟩
    · exact Iff.rfl
    · exact hline c d hc hd

end Like

/-! ## Conditions -/

/-- A field holds a text. -/
def Field.Reads (named : Field) (state : ReadState) (t : String) : Prop :=
  ((Reading.field named).run state).1 = .text t

/-- A predicate decides the same wherever a field holds two texts with characters in the same places
that stand in a relation. -/
def Predicate.DecidesAlike (p : Predicate) (named : Field) (R : Char → Char → Prop) : Prop :=
  ∀ t t', Like.Alike R t t' → ∀ s s', named.Reads s t → named.Reads s' t' →
    (p.evaluate.run s).1 = (p.evaluate.run s').1

/-- A binding of the whole path of a field is what the field holds. It is looked for before the path
is taken apart. -/
theorem Field.reads_insert (named : Field) (context : Context) (calls : Calls)
    (forced : List String) (t : String) :
    named.Reads ⟨context.insert named.path (.text t), calls, forced⟩ t := by
  have hknown : (context.insert named.path (.text t)).known? named.path =
      some (some (.text t)) := by
    rw [Context.known?, Context.insert, Context.lookup_bindings_bind, if_pos rfl]
  unfold Field.Reads Reading.field Reading.lookup
  rw [StateT.run_bind, Reading.get_of_known hknown]
  rfl

/-- A compiled condition asks whether the wildcard text admits the text that the field holds, and
the other way round if it is negated. -/
theorem Expr.evaluate_ofExpr_like {resolve : Resolver} {limit : Nat} {path like : String}
    {negated : Bool} {p : Predicate}
    (h : Predicate.ofExpr resolve limit (.like (.field path) like negated) = .ok p) :
    ∃ named, resolve path = .ok named ∧ ∀ s t, named.Reads s t →
      (p.evaluate.run s).1 = (Like.admits like t != negated) := by
  cases limit with
  | zero => cases h
  | succ room =>
    cases condition_succ_eq_ok.mp h with
    | like _ ha hpattern =>
      cases ha with
      | decision hcondition _ => cases hcondition
      | field hnamed =>
        refine ⟨_, hnamed, fun s t hreads => ?_⟩
        rw [Predicate.evaluate, StateT.run_bind, Operand.read]
        show ((((Reading.field _).run s).1.matchText?.any _) != negated) = _
        rw [hreads, Value.matchText?, Option.any_some, Like.isFoundIn_toRegex hpattern]

/-- So it decides alike just when the wildcard text admits alike. Each text is what the field holds
in some context, which is how one asks back. -/
theorem Expr.decidesAlike_ofExpr_like {resolve : Resolver} {limit : Nat} {path like : String}
    {negated : Bool} {p : Predicate}
    (h : Predicate.ofExpr resolve limit (.like (.field path) like negated) = .ok p) :
    ∃ named, resolve path = .ok named ∧ ∀ R : Char → Char → Prop, p.DecidesAlike named R ↔
      ∀ t t', Like.Alike R t t' → Like.admits like t = Like.admits like t' := by
  obtain ⟨named, hnamed, hdecides⟩ := evaluate_ofExpr_like h
  refine ⟨named, hnamed, fun R => ⟨fun halike t t' hR => ?_, fun hadmits t t' hR s s' hs hs' => ?_⟩⟩
  · have hs := named.reads_insert .empty [] [] t
    have hs' := named.reads_insert .empty [] [] t'
    have hsame := halike t t' hR _ _ hs hs'
    rw [hdecides _ t hs, hdecides _ t' hs'] at hsame
    exact Bool.bne_left_inj.mp hsame
  · rw [hdecides s t hs, hdecides s' t' hs', hadmits t t' hR]

/-- **The condition `x LIKE p` does not see which characters its wildcards cover, line feeds apart.**
About two texts that differ only in characters that `p` does not have it decides alike if they have
line feeds in the same places; and wherever these are, just when `p` has no wildcard or no line feed
can stand on one side only. -/
theorem Predicate.decidesAlike_iff {resolve : Resolver} {limit : Nat} {path like : String}
    {negated : Bool} {p : Predicate}
    (h : Predicate.ofExpr resolve limit (.like (.field path) like negated) = .ok p) :
    ∃ named, resolve path = .ok named ∧
      (∀ (context : Context) (calls : Calls) (forced : List String) (t : String),
        named.Reads ⟨context.insert named.path (.text t), calls, forced⟩ t) ∧
      p.DecidesAlike named (fun c d => Like.Exchanged like c d ∧ Like.SameLine c d) ∧
      (p.DecidesAlike named (Like.Exchanged like) ↔
        Like.Fixed like ∨ ∀ c d, c ∉ like.toList → d ∉ like.toList → Like.SameLine c d) := by
  obtain ⟨named, hnamed, hdecides⟩ := Expr.decidesAlike_ofExpr_like h
  refine ⟨named, hnamed, named.reads_insert, ?_, ?_⟩
  · rw [hdecides]
    intro t t' hR
    exact Like.admits_eq_of_alike (fun c d hcd => hcd.1) (.inr fun c d hcd => hcd.2) hR
  · rw [hdecides]
    exact Like.admits_blind_iff like

/-- `d LIKE '5_'` decides alike about `5a` and `5` with a tab, and does not decide alike about all such
texts. -/
theorem Predicate.decidesAlike_fiveAndOne :
    ∃ p named, Predicate.ofExpr FieldPolicy.any.resolve 1 (.like (.field "d") "5_" false) = .ok p ∧
      FieldPolicy.any.resolve "d" = .ok named ∧
      ¬p.DecidesAlike named (Like.Exchanged "5_") ∧
      ∀ s s', named.Reads s "5a" → named.Reads s' "5\t" →
        (p.evaluate.run s).1 = (p.evaluate.run s').1 := by
  have hpattern : Pattern.ofText? (Like.toRegex "5_") = some .fiveAndOne :=
    Pattern.ofText?_source .fiveAndOne
  have compiles : Predicate.ofExpr FieldPolicy.any.resolve 1 (.like (.field "d") "5_" false) =
      .ok (.matching false (.field ⟨"d", by decide⟩) .fiveAndOne) :=
    Expr.condition_succ_eq_ok.mpr (.like false (.field rfl) hpattern)
  obtain ⟨named, hnamed, -, hsame, hblind⟩ := Predicate.decidesAlike_iff compiles
  refine ⟨_, named, compiles, hnamed, ?_, ?_⟩
  · rw [hblind]
    rintro (hfixed | hline)
    · exact absurd (hfixed .one (by decide)) (by decide)
    · exact absurd ((hline '\n' 'a' (by decide) (by decide)).mp rfl) (by decide)
  · refine hsame "5a" "5\t" (.cons ⟨.inl rfl, Iff.rfl⟩ (.cons ⟨.inr ?_, ?_⟩ .nil))
    · decide
    · exact iff_of_false (by decide) (by decide)

/-- **A line feed in the place of a letter changes the decision**: `x LIKE '_'` holds of the letter and
not of the line feed. -/
theorem Predicate.not_decidesAlike_underscore :
    ∃ p, Predicate.ofExpr FieldPolicy.any.resolve 1 (.like (.field "x") "_" false) = .ok p ∧
      Like.Alike (Like.Exchanged "_") "a" "\n" ∧
      (p.evaluate.run ⟨Context.empty.insert "x" (.text "a"), [], []⟩).1 = true ∧
      (p.evaluate.run ⟨Context.empty.insert "x" (.text "\n"), [], []⟩).1 = false := by
  let pattern := Like.toPattern "_" (by decide +kernel)
  have hpattern : Pattern.ofText? (Like.toRegex "_") = some pattern := Pattern.ofText?_source pattern
  have compiles : Predicate.ofExpr FieldPolicy.any.resolve 1 (.like (.field "x") "_" false) =
      .ok (.matching false (.field ⟨"x", by decide⟩) pattern) :=
    Expr.condition_succ_eq_ok.mpr (.like false (.field rfl) hpattern)
  obtain ⟨named, hnamed, hdecides⟩ := Expr.evaluate_ofExpr_like compiles
  have hpath : named.path = "x" := by
    cases hnamed
    rfl
  have hreads : ∀ t, named.Reads ⟨Context.empty.insert "x" (.text t), [], []⟩ t := by
    intro t
    have hinsert := named.reads_insert .empty [] [] t
    rwa [hpath] at hinsert
  refine ⟨_, compiles, .cons (.inr (by decide)) .nil, ?_, ?_⟩
  · rw [hdecides _ "a" (hreads "a")]
    decide
  · rw [hdecides _ "\n" (hreads "\n")]
    decide

end WhereRules
