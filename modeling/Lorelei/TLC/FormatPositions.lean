import Lorelei.TLC.CallsCarried

/-!
# Where the positions of a formatted call come from

A pass takes the positions of the format string and of the variadic part from the
descriptor, from the format attribute of the declaration or from the parameters that the
signature ends in. Only the last of them looks at the parameters (`testSignature_eq_some`);
the attribute of a function with a `va_list` is read as if the list came right behind the
format string.
-/

namespace Lorelei.TLC

open Support

namespace LibCFormatPass

variable (getAsString : QualType → Str) (self : LibCFormatPass) (proc : ProcSnippet)

/-- The positions in the pass tag of the descriptor; negative ones stand for none. -/
def descriptorPositions : Option LibCFormatMessage :=
  match integralArgumentsInPass 2 proc true self.id with
  | some [fmtIdx, vargIdx] =>
      if fmtIdx < 0 || vargIdx < 0 then none else some ⟨fmtIdx, vargIdx⟩
  | _ => none

/-- The positions that are given to the pass, in a descriptor or an attribute. -/
def givenPositions : Option LibCFormatMessage :=
  (self.descriptorPositions proc).or (self.testFormatAttr proc)

/-- The position of the format string: the given one, or the parameter in front of the
variadic part. -/
def formatPosition (view : FunctionTypeView) : Int :=
  match self.givenPositions proc with
  | some given => given.fmtIdx
  | none => view.argTypes.length - if self.hasVAList then 1 else 0

variable {getAsString self proc} {message : LibCFormatMessage} {view : FunctionTypeView}

/-- The signature is looked at where no positions are given. -/
theorem testProc_cases (h : self.testProc getAsString proc = some message) :
    self.givenPositions proc = some message ∨
      self.givenPositions proc = none ∧ self.testSignature getAsString proc = some message := by
  have hdeclaration : ∀ passWithDefaultArgs,
      self.testDeclaration getAsString proc passWithDefaultArgs = some message →
        self.testFormatAttr proc = some message ∨ self.testFormatAttr proc = none ∧
          self.testSignature getAsString proc = some message := by
    intro passWithDefaultArgs hmessage
    rw [testDeclaration] at hmessage
    rcases Option.or_eq_some_iff.mp hmessage with hattr | ⟨hattr, hsignature⟩
    · exact .inl hattr
    · exact .inr ⟨hattr, (Option.ite_none_right_eq_some.mp hsignature).2⟩
  have hgiven : ∀ fmtIdx vargIdx, integralArgumentsInPass 2 proc true self.id =
      some [fmtIdx, vargIdx] → self.descriptorPositions proc =
        if fmtIdx < 0 || vargIdx < 0 then none else some ⟨fmtIdx, vargIdx⟩ := by
    intro fmtIdx vargIdx hargs
    rw [descriptorPositions, hargs]
  have hnone : (∀ fmtIdx vargIdx, integralArgumentsInPass 2 proc true self.id ≠
      some [fmtIdx, vargIdx]) → self.descriptorPositions proc = none := by
    intro hargs
    rw [descriptorPositions]
    split
    next fmtIdx vargIdx heq => exact absurd heq (hargs fmtIdx vargIdx)
    next => rfl
  rw [givenPositions]
  rw [testProc] at h
  split at h
  next fmtIdx vargIdx hargs =>
    rw [hgiven fmtIdx vargIdx hargs]
    split at h
    next hneg =>
      rw [if_pos hneg, Option.none_or]
      exact hdeclaration true h
    next hneg =>
      rw [if_neg hneg, Option.some_or]
      exact .inl h
  next hargs =>
    rw [hnone hargs, Option.none_or]
    exact hdeclaration false h

/-- The positions that are taken from the signature are those of its last parameters. -/
theorem testSignature_eq_some (hview : proc.realFunctionTypeView = some view)
    (h : self.testSignature getAsString proc = some message) :
    message.fmtIdx = view.argTypes.length - (if self.hasVAList then 1 else 0) ∧
      message.vargIdx = view.argTypes.length + (if self.hasVAList then 0 else 1) ∧
      1 ≤ message.fmtIdx ∧ view.isVariadic = !self.hasVAList := by
  rw [testSignature, hview, Option.bind_eq_bind, Option.bind_some, Option.bind_eq_bind,
    Option.bind_eq_some_iff] at h
  obtain ⟨lastType, hlast, h⟩ := h
  have hpos : 0 < view.argTypes.length := by
    rw [List.getLast?_eq_getElem?] at hlast
    have hlt := (List.getElem?_eq_some_iff.mp hlast).1
    omega
  cases hva : self.hasVAList with
  | true =>
      rw [hva, if_pos rfl] at h
      obtain ⟨hcond, h⟩ := Option.ite_none_right_eq_some.mp h
      obtain ⟨t, -, h⟩ := Option.bind_eq_some_iff.mp h
      obtain ⟨-, h⟩ := Option.ite_none_right_eq_some.mp h
      obtain rfl := Option.some.inj h
      simp only [Bool.and_eq_true, Bool.not_eq_true', decide_eq_true_eq] at hcond
      obtain ⟨⟨hvariadic, hsize⟩, -⟩ := hcond
      refine ⟨rfl, (Int.add_zero _).symm, ?_, hvariadic⟩
      show (1 : Int) ≤ view.argTypes.length - 1
      omega
  | false =>
      rw [hva, if_neg Bool.false_ne_true] at h
      obtain ⟨hcond, h⟩ := Option.ite_none_right_eq_some.mp h
      obtain rfl := Option.some.inj h
      simp only [Bool.and_eq_true] at hcond
      refine ⟨(Int.sub_zero _).symm, rfl, ?_, hcond.1⟩
      show (1 : Int) ≤ view.argTypes.length
      omega

end LibCFormatPass

/-! ## The positions that a pass accepts -/

variable {getAsString : QualType → Str} {cc : Mode → Compiler} {pass : LibCFormatPass}
  {proc : ProcSnippet} {message : LibCFormatMessage} {view : FunctionTypeView}

/-- The positions are those of a character pointer and of the variadic part, and a call
reaches the function with the arguments it was made with. -/
structure PositionsHold (cc : Mode → Compiler) (pass : LibCFormatPass)
    (message : LibCFormatMessage) (proc : ProcSnippet) (view : FunctionTypeView) : Prop where
  format : 1 ≤ message.fmtIdx ∧ ∃ t, view.argTypes[(message.fmtIdx - 1).toNat]? = some t ∧
    t.isCharPointerType = true
  variadic : if pass.hasVAList then 1 ≤ message.vargIdx ∧
      view.argTypes[(message.vargIdx - 1).toNat]? =
        some (cc (senderMode proc.direction)).vaListType
    else view.isVariadic = true ∧ message.vargIdx = view.argTypes.length + 1
  arguments : ArgumentsReach cc pass message proc view

/-- Positions that are given end in the last parameter or behind it, the format string is
one of plain characters, and the types cross. -/
structure FormatFits (s r : Compiler) (pass : LibCFormatPass) (proc : ProcSnippet)
    (view : FunctionTypeView) : Prop where
  types : FormatTypes s r pass proc view
  given : ∀ given, pass.givenPositions proc = some given → 1 ≤ given.fmtIdx ∧
    given.vargIdx = view.argTypes.length + (if pass.hasVAList then 0 else 1) ∧
      2 ≤ given.vargIdx ∧ view.isVariadic = !pass.hasVAList
  format : ∃ t, view.argTypes[(pass.formatPosition proc view - 1).toNat]? = some t ∧
    IsFormatString t

theorem IsFormatString.isCharPointerType {t : QualType} (h : IsFormatString t) :
    t.isCharPointerType = true := by
  obtain ⟨quals, quals', rfl, -⟩ := h
  rfl

/-- The positions that a pass accepts hold exactly where those that are given to it fit
the signature. -/
theorem positionsHold_iff (cc : Mode → Compiler) (hview : proc.realFunctionTypeView = some view)
    (h : pass.testProc getAsString proc = some message) :
    PositionsHold cc pass message proc view ↔ FormatFits (cc (senderMode proc.direction))
      (cc (receiverMode proc.direction)) pass proc view := by
  have hpacks : PositionsHold cc pass message proc view ↔
      FormatPacks (cc (senderMode proc.direction)) (cc (receiverMode proc.direction)) pass message
        proc view := by
    refine ⟨fun hhold => argumentsReach_iff.mp hhold.arguments, fun hpacks => ?_⟩
    obtain ⟨t, ht, hformat⟩ := hpacks.format
    have hvargIdx := hpacks.vargIdx
    have htwo := hpacks.two_le
    refine ⟨⟨hpacks.one_le, t, ht, hformat.isCharPointerType⟩, ?_, argumentsReach_iff.mpr hpacks⟩
    have hvariadic := hpacks.variadic
    split
    next hva =>
      rw [if_pos hva] at hvargIdx
      have hlast := hpacks.list hva
      rw [List.getLast?_eq_getElem?] at hlast
      refine ⟨by omega, ?_⟩
      rw [← hlast]
      congr 1
      omega
    next hva =>
      rw [if_neg hva] at hvargIdx
      rw [hvariadic, Bool.eq_false_iff.mpr hva]
      exact ⟨rfl, hvargIdx⟩
  rw [hpacks]
  rcases LibCFormatPass.testProc_cases h with hgiven | ⟨hgiven, hsignature⟩
  · have hposition : pass.formatPosition proc view = message.fmtIdx := by
      rw [LibCFormatPass.formatPosition, hgiven]
    constructor
    · rintro ⟨htypes, hvariadic, hvargIdx, htwo, hone, hformat⟩
      refine ⟨htypes, ?_, by rwa [hposition]⟩
      intro given heq
      obtain rfl := Option.some.inj (hgiven.symm.trans heq)
      exact ⟨hone, hvargIdx, htwo, hvariadic⟩
    · rintro ⟨htypes, hfits, hformat⟩
      obtain ⟨hone, hvargIdx, htwo, hvariadic⟩ := hfits message hgiven
      exact ⟨htypes, hvariadic, hvargIdx, htwo, hone, by rwa [hposition] at hformat⟩
  · obtain ⟨hfmtIdx, hvargIdx, hone, hvariadic⟩ :=
      LibCFormatPass.testSignature_eq_some hview hsignature
    have hposition : pass.formatPosition proc view = message.fmtIdx := by
      rw [LibCFormatPass.formatPosition, hgiven, hfmtIdx]
    constructor
    · rintro ⟨htypes, -, -, -, -, hformat⟩
      refine ⟨htypes, ?_, by rwa [hposition]⟩
      intro given heq
      rw [hgiven] at heq
      exact nomatch heq
    · rintro ⟨htypes, -, hformat⟩
      have htwo : 2 ≤ message.vargIdx := by
        cases hva : pass.hasVAList with
        | true =>
            rw [hva, if_pos rfl] at hfmtIdx hvargIdx
            omega
        | false =>
            rw [hva, if_neg Bool.false_ne_true] at hfmtIdx hvargIdx
            omega
      exact ⟨htypes, hvariadic, hvargIdx, htwo, hone, by rwa [hposition] at hformat⟩

/-! ## Positions from a name and from an attribute -/

def constCharPtr : QualType := .pointerTo (.builtin { const := true } .char)

def printfView : FunctionTypeView := ⟨.builtin {} .int, [constCharPtr], true⟩

/-- `int printf(const char *fmt, ...)`, without an attribute. -/
def printfProc : ProcSnippet where
  kind := .function
  direction := .guestToHost
  name := "printf".toList
  functionPointerType :=
    .pointerTo (.functionProto printfView.returnType printfView.argTypes printfView.isVariadic)

theorem positionsHold_printf :
    PositionsHold (fun _ => x86_64) PrintFPass ⟨1, 2⟩ printfProc printfView ↔
      FormatFits x86_64 x86_64 PrintFPass printfProc printfView :=
  positionsHold_iff (fun _ => x86_64)
    (show printfProc.realFunctionTypeView = some printfView from rfl)
    (show PrintFPass.testProc QualType.getAsString printfProc = some ⟨1, 2⟩ by decide)

def vlogfView : FunctionTypeView :=
  ⟨.void, [constCharPtr, .builtin {} .int, .pointerTo vaListTagType], false⟩

def vlogfType : QualType :=
  .functionProto vlogfView.returnType vlogfView.argTypes vlogfView.isVariadic

/-- `void vlogf(const char *fmt, int level, va_list ap)`, with the attribute
`format(printf, 1, 0)`. -/
def vlogfProc : ProcSnippet where
  kind := .function
  direction := .guestToHost
  name := "vlogf".toList
  functionDecl := some { type := vlogfType, formatAttr := some ⟨"printf", 1, 0⟩ }
  functionPointerType := .pointerTo vlogfType

/-- The level is taken for the list. -/
theorem not_positionsHold_vlogf :
    vlogfProc.realFunctionTypeView = some vlogfView ∧
      VPrintFPass.testProc QualType.getAsString vlogfProc = some ⟨1, 2⟩ ∧
        ¬ PositionsHold (fun _ => x86_64) VPrintFPass ⟨1, 2⟩ vlogfProc vlogfView := by
  refine ⟨rfl, by decide, ?_⟩
  rintro ⟨-, hvariadic, -⟩
  obtain ⟨-, hlist⟩ := hvariadic
  revert hlist
  decide

end Lorelei.TLC
