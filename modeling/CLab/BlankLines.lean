import CLab.ParserSteps

/-!
# Blank lines

Behind the end of a line, and at the start of the file, a program may have any
number of further ends of lines: token lists that differ in these only
(`SameLines`) are the same programs, with the same blocks.
-/

namespace Assembler

/-- The same tokens but for blank lines; `start` says that a line begins here, so
that blank lines may come first. -/
inductive SameLines : Bool → List Token → List Token → Prop
  | nil {start : Bool} : SameLines start [] []
  | token {start : Bool} {token : Token} {tokens tokens' : List Token}
      (htoken : token.type ≠ .eol) (tail : SameLines false tokens tokens') :
      SameLines start (token :: tokens) (token :: tokens')
  | eol {start : Bool} {eol eol' : Token} {tokens tokens' : List Token}
      (heol : eol.type = .eol) (heol' : eol'.type = .eol) (tail : SameLines true tokens tokens') :
      SameLines start (eol :: tokens) (eol' :: tokens')
  | left {eol : Token} {tokens tokens' : List Token}
      (heol : eol.type = .eol) (tail : SameLines true tokens tokens') :
      SameLines true (eol :: tokens) tokens'
  | right {eol : Token} {tokens tokens' : List Token}
      (heol : eol.type = .eol) (tail : SameLines true tokens tokens') :
      SameLines true tokens (eol :: tokens')

namespace SameLines

variable {start : Bool} {token : Token} {tokens tokens' : List Token}

/-- More is allowed where a line begins. -/
theorem mono (h : SameLines start tokens tokens') : SameLines true tokens tokens' := by
  cases h with
  | nil => exact .nil
  | token htoken tail => exact .token htoken tail
  | eol heol heol' tail => exact .eol heol heol' tail
  | left heol tail => exact .left heol tail
  | right heol tail => exact .right heol tail

/-- The relation is symmetric. -/
theorem symm (h : SameLines start tokens tokens') : SameLines start tokens' tokens := by
  induction h with
  | nil => exact .nil
  | token htoken _ ih => exact .token htoken ih
  | eol heol heol' _ ih => exact .eol heol' heol ih
  | left heol _ ih => exact .right heol ih
  | right heol _ ih => exact .left heol ih

/-- Inside of a line the next token is the same. -/
theorem inside (h : SameLines false (token :: tokens) tokens') (htoken : token.type ≠ .eol) :
    ∃ rest, tokens' = token :: rest ∧ SameLines false tokens rest := by
  cases h with
  | token _ tail => exact ⟨_, rfl, tail⟩
  | eol heol => exact absurd heol htoken

/-- At the end of a line the other list has one as well. -/
theorem ends (h : SameLines false (token :: tokens) tokens') (htoken : token.type = .eol) :
    ∃ eol rest, tokens' = eol :: rest ∧ eol.type = .eol ∧ SameLines true tokens rest := by
  cases h with
  | token hne => exact absurd htoken hne
  | eol _ heol' tail => exact ⟨_, _, rfl, heol', tail⟩

/-- Where a line begins, a blank line can be left out. -/
theorem drop (h : SameLines true (token :: tokens) tokens') (htoken : token.type = .eol) :
    SameLines true tokens tokens' := by
  generalize hlist : token :: tokens = list at h
  generalize hstart : true = start at h
  induction h with
  | nil => cases hlist
  | token hne _ => exact absurd ((List.cons.inj hlist).1 ▸ htoken) hne
  | eol _ heol' tail =>
      rw [← hstart, (List.cons.inj hlist).2]
      exact .right heol' tail
  | left _ tail =>
      rw [(List.cons.inj hlist).2]
      exact tail
  | right heol _ ih => exact .right heol (ih hlist rfl)

/-- Where a line begins, the next token comes behind blank lines. -/
theorem next (h : SameLines true (token :: tokens) tokens') (htoken : token.type ≠ .eol) :
    ∃ blanks rest, tokens' = blanks ++ token :: rest ∧ (∀ t ∈ blanks, t.type = .eol) ∧
      SameLines false tokens rest := by
  generalize hlist : token :: tokens = list at h
  generalize hstart : true = start at h
  induction h with
  | nil => cases hlist
  | token _ tail =>
      obtain ⟨rfl, rfl⟩ := List.cons.inj hlist
      exact ⟨[], _, rfl, fun _ h => absurd h List.not_mem_nil, tail⟩
  | eol heol => exact absurd ((List.cons.inj hlist).1 ▸ heol) htoken
  | left heol => exact absurd ((List.cons.inj hlist).1 ▸ heol) htoken
  | right heol _ ih =>
      obtain ⟨blanks, rest, rfl, hblanks, htail⟩ := ih hlist rfl
      exact ⟨_ :: blanks, rest, rfl, List.forall_mem_cons.mpr ⟨heol, hblanks⟩, htail⟩

/-- Blank lines are opposite to blank lines. -/
theorem blanks (h : SameLines start tokens tokens') (hblanks : ∀ t ∈ tokens, t.type = .eol) :
    ∀ t ∈ tokens', t.type = .eol := by
  induction h with
  | nil => exact hblanks
  | token htoken => exact absurd (hblanks _ List.mem_cons_self) htoken
  | eol _ heol' _ ih =>
      exact List.forall_mem_cons.mpr ⟨heol', ih (List.forall_mem_cons.mp hblanks).2⟩
  | left _ _ ih => exact ih (List.forall_mem_cons.mp hblanks).2
  | right heol _ ih => exact List.forall_mem_cons.mpr ⟨heol, ih hblanks⟩

/-- Inside a line no blank lines can be added to an empty list. -/
theorem nil_left (h : SameLines false [] tokens') : tokens' = [] := by
  cases h
  rfl

/-- Tokens without an end of line are the same. -/
theorem append {line after : List Token} (hline : ∀ t ∈ line, t.type ≠ .eol)
    (h : SameLines false (line ++ after) tokens') :
    ∃ after', tokens' = line ++ after' ∧ SameLines false after after' := by
  induction line generalizing tokens' with
  | nil => exact ⟨tokens', rfl, h⟩
  | cons t line ih =>
      obtain ⟨hfirst, hrest⟩ := List.forall_mem_cons.mp hline
      obtain ⟨rest, rfl, htail⟩ := h.inside hfirst
      obtain ⟨after', rfl, hafter⟩ := ih hrest htail
      exact ⟨after', rfl, hafter⟩

end SameLines

/-! ## The grammar -/

section Grammar

variable {tokens tokens' after after' rest : List Token} {ending : Ending}

/-- A line end stays one. -/
theorem LineEnd.sameLines (h : LineEnd after rest) (hsame : SameLines false after after') :
    ∃ rest', LineEnd after' rest' ∧ SameLines true rest rest' := by
  cases h with
  | eol heol =>
      obtain ⟨eol, rest', rfl, heol', htail⟩ := hsame.ends heol
      exact ⟨rest', .eol heol', htail⟩
  | eoft heoft =>
      obtain ⟨rest', rfl, -⟩ := hsame.inside (by rw [heoft]; decide)
      exact ⟨_, .eoft heoft, hsame.mono⟩
  | null => exact ⟨[], hsame.nil_left ▸ .null, .nil⟩

theorem atLineEnd_sameLines (h : atLineEnd after = true) (hsame : SameLines false after after') :
    atLineEnd after' = true := by
  obtain ⟨rest, hend⟩ := exists_lineEnd h
  obtain ⟨rest', hend', -⟩ := hend.sameLines hsame
  exact hend'.atLineEnd

/-- An operand lies inside a line and stays. -/
theorem Operand.sameLines {operand : Token} {deref : Bool}
    (h : Operand tokens operand deref rest) (hsame : SameLines false tokens tokens') :
    ∃ rest', Operand tokens' operand deref rest' ∧ SameLines false rest rest' := by
  have hne : ∀ {t : Token}, t.type = .register ∨ t.type = .identifier → t.type ≠ .eol := by
    intro t ht heol
    rw [heol] at ht
    rcases ht with ht | ht <;> cases ht
  cases h with
  | immediate hhashtag hnumber =>
      obtain ⟨_, rfl, hbehind⟩ := hsame.inside (by rw [hhashtag]; decide)
      obtain ⟨rest', rfl, htail⟩ := hbehind.inside (by rw [hnumber]; decide)
      exact ⟨rest', .immediate hhashtag hnumber, htail⟩
  | direct hoperand =>
      obtain ⟨rest', rfl, htail⟩ := hsame.inside (hne hoperand)
      exact ⟨rest', .direct hoperand, htail⟩
  | dereferenced hstar hoperand =>
      obtain ⟨_, rfl, hbehind⟩ := hsame.inside (by rw [hstar]; decide)
      obtain ⟨rest', rfl, htail⟩ := hbehind.inside (hne hoperand)
      exact ⟨rest', .dereferenced hstar hoperand, htail⟩

theorem Instruction.sameLines {node : InstructionNode} (h : Instruction ending tokens node rest)
    (hsame : SameLines false tokens tokens') :
    ∃ rest', Instruction ending tokens' node rest' ∧ SameLines true rest rest' := by
  cases h with
  | noOperands hop hend =>
      obtain ⟨after', rfl, htail⟩ := hsame.inside (isInstructionToken_ne hop).1
      exact ⟨after', .noOperands hop (atLineEnd_sameLines hend htail), htail.mono⟩
  | oneOperand hop hfirst hend =>
      obtain ⟨_, rfl, htail⟩ := hsame.inside (isInstructionToken_ne hop).1
      obtain ⟨after', hfirst', hafter⟩ := hfirst.sameLines htail
      exact ⟨after', .oneOperand hop hfirst' (atLineEnd_sameLines hend hafter), hafter.mono⟩
  | twoOperands hop hfirst hcomma hsecond hend =>
      obtain ⟨_, rfl, htail⟩ := hsame.inside (isInstructionToken_ne hop).1
      obtain ⟨middle, hfirst', hmiddle⟩ := hfirst.sameLines htail
      obtain ⟨_, rfl, hbehind⟩ := hmiddle.inside (by rw [hcomma]; decide)
      obtain ⟨after', hsecond', hafter⟩ := hsecond.sameLines hbehind
      exact ⟨after', .twoOperands hop hfirst' hcomma hsecond' (atLineEnd_sameLines hend hafter),
        hafter.mono⟩
  | cut hop hfirst hcomma =>
      obtain ⟨_, rfl, htail⟩ := hsame.inside (isInstructionToken_ne hop).1
      obtain ⟨middle, hfirst', hmiddle⟩ := hfirst.sameLines htail
      obtain ⟨rest', rfl, hbehind⟩ := hmiddle.inside (by rw [hcomma]; decide)
      obtain rfl := hbehind.nil_left
      exact ⟨[], .cut hop hfirst' hcomma, .nil⟩

theorem Numbers.sameLines {numbers : List Token} (h : Numbers ending tokens numbers rest)
    (hsame : SameLines false tokens tokens') :
    ∃ rest', Numbers ending tokens' numbers rest' ∧ SameLines true rest rest' := by
  induction h generalizing tokens' with
  | last hnumber hend =>
      obtain ⟨after', rfl, htail⟩ := hsame.inside (by rw [hnumber]; decide)
      obtain ⟨rest', hend', hrest⟩ := hend.sameLines htail
      exact ⟨rest', .last hnumber hend', hrest⟩
  | comma hnumber hcomma heof =>
      obtain ⟨_, rfl, hbehind⟩ := hsame.inside (by rw [hnumber]; decide)
      obtain ⟨_, rfl, hlast⟩ := hbehind.inside (by rw [hcomma]; decide)
      obtain ⟨rest', rfl, -⟩ := hlast.inside (by rw [heof]; decide)
      exact ⟨_, .comma hnumber hcomma heof, hlast.mono⟩
  | cut hnumber hcomma =>
      obtain ⟨_, rfl, hbehind⟩ := hsame.inside (by rw [hnumber]; decide)
      obtain ⟨rest', rfl, hlast⟩ := hbehind.inside (by rw [hcomma]; decide)
      obtain rfl := hlast.nil_left
      exact ⟨[], .cut hnumber hcomma, .nil⟩
  | cons hnumber hcomma _ ih =>
      obtain ⟨_, rfl, hbehind⟩ := hsame.inside (by rw [hnumber]; decide)
      obtain ⟨_, rfl, htail⟩ := hbehind.inside (by rw [hcomma]; decide)
      obtain ⟨rest', hnumbers, hrest⟩ := ih htail
      exact ⟨rest', .cons hnumber hcomma hnumbers, hrest⟩

theorem GuidanceLine.sameLines {node : GuidanceNode} (h : GuidanceLine ending tokens node rest)
    (hsame : SameLines false tokens tokens') :
    ∃ rest', GuidanceLine ending tokens' node rest' ∧ SameLines true rest rest' := by
  cases h with
  | data hdirective hnumbers =>
      obtain ⟨_, rfl, htail⟩ := hsame.inside (by rw [hdirective]; decide)
      obtain ⟨rest', hnumbers', hrest⟩ := hnumbers.sameLines htail
      exact ⟨rest', .data hdirective hnumbers', hrest⟩
  | string hdirective hstring hend =>
      obtain ⟨_, rfl, hbehind⟩ := hsame.inside (by rw [hdirective]; decide)
      obtain ⟨_, rfl, htail⟩ := hbehind.inside (by rw [hstring]; decide)
      obtain ⟨rest', hend', hrest⟩ := hend.sameLines htail
      exact ⟨rest', .string hdirective hstring hend', hrest⟩

/-- Lines of one kind begin with a token of theirs. -/
theorem Lines.sameLines {α : Type} {Line : Ending → List Token → α → List Token → Prop}
    (hstarts : ∀ {ending tokens node rest}, Line ending tokens node rest →
      ∃ token behind, tokens = token :: behind ∧ token.type ≠ .eol)
    (hline : ∀ {ending tokens tokens' node rest}, Line ending tokens node rest →
      SameLines false tokens tokens' →
        ∃ rest', Line ending tokens' node rest' ∧ SameLines true rest rest')
    {nodes : List α} (h : Lines Line ending tokens nodes rest)
    (hsame : SameLines true tokens tokens') :
    ∃ rest', Lines Line ending tokens' nodes rest' ∧ SameLines true rest rest' := by
  have hblank : ∀ {ending tokens nodes rest} {blanks : List Token},
      (∀ t ∈ blanks, t.type = .eol) → Lines Line ending tokens nodes rest →
        Lines Line ending (blanks ++ tokens) nodes rest := by
    intro ending tokens nodes rest blanks hblanks hlines
    induction blanks with
    | nil => exact hlines
    | cons eol blanks ih =>
        obtain ⟨heol, hrest⟩ := List.forall_mem_cons.mp hblanks
        exact .blank heol (ih hrest)
  induction h generalizing tokens' with
  | nil tokens => exact ⟨tokens', .nil tokens', hsame⟩
  | blank heol _ ih => exact ih (hsame.drop heol)
  | cons hfirst _ ih =>
      obtain ⟨token, behind, rfl, htoken⟩ := hstarts hfirst
      obtain ⟨blanks, rest', rfl, hblanks, htail⟩ := hsame.next htoken
      obtain ⟨middle', hfirst', hmiddle⟩ := hline hfirst (.token htoken htail)
      obtain ⟨rest'', hlines, hrest⟩ := ih hmiddle
      exact ⟨rest'', hblank hblanks (.cons hfirst' hlines), hrest⟩
  | last hending hlast =>
      obtain ⟨token, behind, rfl, htoken⟩ := hstarts hlast
      obtain ⟨blanks, rest', rfl, hblanks, htail⟩ := hsame.next htoken
      obtain ⟨rest'', hlast', hrest⟩ := hline hlast (.token htoken htail)
      exact ⟨rest'', hblank hblanks (.last hending hlast'), hrest⟩

/-- A run of instructions stays one. -/
theorem instructionLines_sameLines {nodes : List InstructionNode}
    (h : Lines Instruction ending tokens nodes rest) (hsame : SameLines true tokens tokens') :
    ∃ rest', Lines Instruction ending tokens' nodes rest' ∧ SameLines true rest rest' := by
  refine Lines.sameLines ?_ (fun hline => hline.sameLines) h hsame
  intro ending tokens node rest hline
  obtain ⟨token, behind, rfl, haccepts⟩ := instructionReader.starts hline
  exact ⟨token, behind, rfl, (isInstructionToken_ne haccepts).1⟩

theorem guidanceLines_sameLines {nodes : List GuidanceNode}
    (h : Lines GuidanceLine ending tokens nodes rest) (hsame : SameLines true tokens tokens') :
    ∃ rest', Lines GuidanceLine ending tokens' nodes rest' ∧ SameLines true rest rest' := by
  refine Lines.sameLines ?_ (fun hline => hline.sameLines) h hsame
  intro ending tokens node rest hline
  obtain ⟨token, behind, rfl, haccepts⟩ := guidanceReader.starts hline
  refine ⟨token, behind, rfl, fun heol => ?_⟩
  rw [heol] at haccepts
  exact absurd haccepts (by decide)

/-- A block comes behind the blank lines in front of it. -/
theorem BlockLines.sameLines {block : Block} (h : BlockLines ending tokens block rest)
    (hsame : SameLines true tokens tokens') :
    ∃ blanks tokens'' rest', tokens' = blanks ++ tokens'' ∧ (∀ t ∈ blanks, t.type = .eol) ∧
      BlockLines ending tokens'' block rest' ∧ SameLines true rest rest' := by
  have hlabelled : ∀ {label colon : Token} {behind : List Token}, LabelColon label colon →
      SameLines true (label :: colon :: behind) tokens' → ∃ blanks behind',
        tokens' = blanks ++ label :: colon :: behind' ∧ (∀ t ∈ blanks, t.type = .eol) ∧
          SameLines true behind behind' := by
    intro label colon behind hlabel hsame
    obtain ⟨blanks, rest, rfl, hblanks, hrest⟩ := hsame.next (by rw [hlabel.labelType]; decide)
    obtain ⟨behind', rfl, hbehind⟩ := hrest.inside (by rw [hlabel.colonType]; decide)
    exact ⟨blanks, behind', rfl, hblanks, hbehind.mono⟩
  cases h with
  | instructions hlabel hlines hnodes =>
      obtain ⟨blanks, behind', rfl, hblanks, hbehind⟩ := hlabelled hlabel hsame
      obtain ⟨rest', hlines', hrest⟩ := instructionLines_sameLines hlines hbehind
      exact ⟨blanks, _, rest', rfl, hblanks, .instructions hlabel hlines' hnodes, hrest⟩
  | labelled hlabel hlines hnodes =>
      obtain ⟨blanks, behind', rfl, hblanks, hbehind⟩ := hlabelled hlabel hsame
      obtain ⟨rest', hlines', hrest⟩ := guidanceLines_sameLines hlines hbehind
      exact ⟨blanks, _, rest', rfl, hblanks, .labelled hlabel hlines' hnodes, hrest⟩
  | unlabelled hlines hnodes =>
      obtain ⟨rest', hlines', hrest⟩ := guidanceLines_sameLines hlines hsame
      exact ⟨[], tokens', rest', rfl, fun _ h => absurd h List.not_mem_nil,
        .unlabelled hlines' hnodes, hrest⟩

/-- Blank lines in front of a program are skipped. -/
theorem Program.blanks {blanks : List Token} {blocks : List Block}
    (hblanks : ∀ t ∈ blanks, t.type = .eol) (h : Program ending tokens blocks) :
    Program ending (blanks ++ tokens) blocks := by
  induction blanks with
  | nil => exact h
  | cons eol blanks ih =>
      obtain ⟨heol, hrest⟩ := List.forall_mem_cons.mp hblanks
      exact .blank heol (ih hrest)

/-- **Blank lines are no matter** to what a program is. -/
theorem Program.sameLines {blocks : List Block} (h : Program ending tokens blocks)
    (hsame : SameLines true tokens tokens') : Program ending tokens' blocks := by
  induction h generalizing tokens' with
  | eoft heof =>
      obtain ⟨blanks, rest', rfl, hblanks, -⟩ := hsame.next (by rw [heof]; decide)
      exact .blanks hblanks (.eoft heof)
  | null =>
      have hblanks := hsame.blanks (fun _ h => absurd h List.not_mem_nil)
      rw [← List.append_nil tokens']
      exact .blanks hblanks .null
  | blank heol _ ih => exact ih (hsame.drop heol)
  | skipped htoken hline hend _ ih =>
      have hne : ∀ {t : Token}, t.type = .macr ∨ t.type = .endmacr → t.type ≠ .eol := by
        intro t ht heol
        rw [heol] at ht
        rcases ht with ht | ht <;> cases ht
      obtain ⟨blanks, rest', rfl, hblanks, hrest⟩ := hsame.next (hne htoken)
      obtain ⟨after', rfl, hafter⟩ := hrest.append fun t ht => (hline t ht).1
      obtain ⟨rest'', hend', htail⟩ := hend.sameLines hafter
      exact .blanks hblanks (.skipped htoken hline hend' (ih htail))
  | external hdirective hlabel hend _ ih =>
      obtain ⟨blanks, _, rfl, hblanks, hrest⟩ := hsame.next (by rw [hdirective]; decide)
      obtain ⟨after', rfl, hafter⟩ := hrest.inside (by rw [hlabel]; decide)
      obtain ⟨rest', hend', htail⟩ := hend.sameLines hafter
      exact .blanks hblanks (.external hdirective hlabel hend' (ih htail))
  | entry hdirective hlabel hend _ ih =>
      obtain ⟨blanks, _, rfl, hblanks, hrest⟩ := hsame.next (by rw [hdirective]; decide)
      obtain ⟨after', rfl, hafter⟩ := hrest.inside (by rw [hlabel]; decide)
      obtain ⟨rest', hend', htail⟩ := hend.sameLines hafter
      exact .blanks hblanks (.entry hdirective hlabel hend' (ih htail))
  | block hblock _ ih =>
      obtain ⟨blanks, _, rest', rfl, hblanks, hblock', hrest⟩ := hblock.sameLines hsame
      exact .blanks hblanks (.block hblock' (ih hrest))
  | lastBlock hending hblock =>
      obtain ⟨blanks, _, rest', rfl, hblanks, hblock', -⟩ := hblock.sameLines hsame
      exact .blanks hblanks (.lastBlock hending hblock')
  | labelCut hlabel hlast =>
      obtain ⟨blanks, _, rfl, hblanks, hrest⟩ := hsame.next (by rw [hlabel.labelType]; decide)
      obtain ⟨last', rfl, htail⟩ := hrest.inside (by rw [hlabel.colonType]; decide)
      exact .blanks hblanks (.labelCut hlabel (htail.blanks hlast))

end Grammar

/-! ## The tokens without the blank lines -/

/-- All blank lines left out; `start` says that a line begins here. -/
def squeezeFrom (start : Bool) : List Token → List Token
  | [] => []
  | token :: rest =>
      if token.type = .eol then
        if start then squeezeFrom true rest else token :: squeezeFrom true rest
      else token :: squeezeFrom false rest

/-- The list with every run of blank lines taken out. -/
def squeeze (tokens : List Token) : List Token := squeezeFrom true tokens

/-- It has the same lines. -/
theorem squeezeFrom_sameLines (start : Bool) (tokens : List Token) :
    SameLines start tokens (squeezeFrom start tokens) := by
  induction tokens generalizing start with
  | nil => exact .nil
  | cons token rest ih =>
      rw [squeezeFrom]
      split_ifs with heol hstart
      · rw [hstart]
        exact .left heol (ih true)
      · exact .eol heol heol (ih true)
      · exact .token heol (ih false)

theorem squeezeFrom_sublist (start : Bool) (tokens : List Token) :
    (squeezeFrom start tokens).Sublist tokens := by
  induction tokens generalizing start with
  | nil => exact .slnil
  | cons token rest ih =>
      rw [squeezeFrom]
      split_ifs
      · exact (ih true).cons token
      · exact (ih true).cons_cons token
      · exact (ih false).cons_cons token

/-- A program is one without its blank lines. -/
theorem program_squeeze_iff {ending : Ending} {tokens : List Token} {blocks : List Block} :
    Program ending (squeeze tokens) blocks ↔ Program ending tokens blocks := by
  have hsame := squeezeFrom_sameLines true tokens
  exact ⟨fun h => h.sameLines hsame.symm, fun h => h.sameLines hsame⟩

end Assembler
