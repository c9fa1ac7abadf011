import Elvis.Directive.Parser
import Elvis.Proofs.Except

/-!
# What a text is refused for

The text of a directive is read without a look at any other directive, so it is refused for its own
faults alone (`Directive.blamesText_parse`).
-/

namespace Elvis

/-- What the text of one directive can be refused for. -/
inductive Cause.OfText : Cause → Prop
  | malformed {type : DirectiveType} {fault : Fault} : OfText (.malformed type fault)
  | aliasTypedAlias {name : Bytes} : OfText (.aliasTypedAlias name)

namespace Directive

variable {α β : Type} {type : DirectiveType} {text : Bytes} {fields : List Bytes}

def BlamesText (x : Except Cause α) : Prop := ∀ cause, x = .error cause → cause.OfText

theorem BlamesText.pure (a : α) : BlamesText (pure a : Except Cause α) := nofun

theorem blamesText_refuse (type : DirectiveType) (fault : Fault) :
    BlamesText (refuse type fault : Except Cause α) := by
  intro cause h
  cases h
  exact .malformed

theorem BlamesText.bind {x : Except Cause α} {f : α → Except Cause β} (hx : BlamesText x)
    (hf : ∀ a, BlamesText (f a)) : BlamesText (x >>= f) := by
  intro cause h
  rcases bind_eq_error_iff.mp h with h | ⟨a, _, h⟩
  · exact hx cause h
  · exact hf a cause h

theorem BlamesText.ite {p : Prop} [Decidable p] {x y : Except Cause α} (hx : BlamesText x)
    (hy : BlamesText y) : BlamesText (if p then x else y) := by
  split
  · exact hx
  · exact hy

theorem BlamesText.mapM {f : α → Except Cause β} (h : ∀ a, BlamesText (f a)) (items : List α) :
    BlamesText (items.mapM f) := by
  induction items with
  | nil => exact .pure []
  | cons item items ih =>
    rw [List.mapM_cons]
    exact (h item).bind fun _ => ih.bind fun _ => .pure _

/-! ## Fields -/

theorem blamesText_readReference : BlamesText (readReference type text) :=
  (BlamesText.pure _).ite (blamesText_refuse _ _)

theorem blamesText_readDeclared : BlamesText (readDeclared type text) :=
  blamesText_readReference.bind fun _ => (blamesText_refuse _ _).ite (.pure _)

theorem blamesText_readYesNo : BlamesText (readYesNo type text) := by
  unfold readYesNo
  split
  · exact .pure _
  · exact blamesText_refuse _ _

theorem blamesText_readEnumValue : BlamesText (readEnumValue type text) :=
  (BlamesText.pure _).ite (blamesText_refuse _ _)

theorem blamesText_readEnumValues (before items : List Bytes) :
    BlamesText (readEnumValues type before items) := by
  induction items generalizing before with
  | nil => exact .pure []
  | cons item items ih =>
    exact blamesText_readEnumValue.bind fun value =>
      (blamesText_refuse _ _).ite ((ih (value :: before)).bind fun _ => .pure _)

theorem blamesText_readElements (values : Option Bytes) :
    BlamesText (readElements text values) := by
  unfold readElements
  refine .ite ?_ (.ite ?_ (blamesText_refuse _ _))
  · split
    · exact blamesText_refuse _ _
    · exact (blamesText_refuse _ _).ite ((blamesText_readEnumValues _ _).bind fun _ => .pure _)
  · split
    · exact .pure _
    · exact blamesText_refuse _ _

theorem blamesText_readAliasTarget (name : Bytes) : BlamesText (readAliasTarget name text) := by
  unfold readAliasTarget
  split
  · exact .pure _
  · exact .pure _
  · intro cause h
    cases h
    exact .aliasTypedAlias
  · exact blamesText_refuse _ _

theorem blamesText_readParameter : BlamesText (readParameter type text) :=
  (blamesText_refuse _ _).ite (.pure _)

theorem blamesText_readKeyword : BlamesText (readKeyword type text) :=
  (BlamesText.pure _).ite (blamesText_refuse _ _)

theorem blamesText_readBranch : BlamesText (readBranch text) := by
  unfold readBranch
  split
  · exact .pure _
  · exact blamesText_refuse _ _

theorem blamesText_readMetavarText : BlamesText (readMetavarText text) :=
  (BlamesText.pure _).ite (blamesText_refuse _ _)

/-! ## Directives -/

theorem blamesText_readBool : BlamesText (readBool fields) := by
  unfold readBool
  split
  · exact blamesText_readDeclared.bind fun _ => blamesText_readYesNo.bind fun _ => .pure _
  · exact blamesText_refuse _ _

theorem blamesText_readEnum : BlamesText (readEnum fields) := by
  unfold readEnum
  split
  · exact blamesText_readDeclared.bind fun _ => blamesText_readEnumValue.bind fun _ =>
      (blamesText_readEnumValues _ _).bind fun _ => .pure _
  · exact blamesText_refuse _ _

theorem blamesText_readAnything : BlamesText (readAnything fields) := by
  unfold readAnything
  split
  · exact blamesText_readDeclared.bind fun _ => .pure _
  · exact blamesText_refuse _ _

theorem blamesText_readList : BlamesText (readList fields) := by
  unfold readList
  split
  · exact blamesText_readDeclared.bind fun _ => (blamesText_readElements _).bind fun _ => .pure _
  · exact blamesText_readDeclared.bind fun _ => (blamesText_readElements _).bind fun _ => .pure _
  · exact blamesText_refuse _ _

theorem blamesText_readSpecial : BlamesText (readSpecial fields) := by
  unfold readSpecial
  split
  · split
    · exact .pure _
    · exact blamesText_refuse _ _
  · exact blamesText_refuse _ _

theorem blamesText_readFlag : BlamesText (readFlag fields) := by
  unfold readFlag
  split
  · exact blamesText_readDeclared.bind fun _ => blamesText_readReference.bind fun _ => .pure _
  · exact blamesText_refuse _ _

theorem blamesText_readAlias : BlamesText (readAlias fields) := by
  unfold readAlias
  split
  · exact blamesText_readDeclared.bind fun _ => blamesText_readReference.bind fun _ =>
      (blamesText_readAliasTarget _).bind fun _ => .pure _
  · exact blamesText_refuse _ _

theorem blamesText_readMapping (perItem : Bool) : BlamesText (readMapping perItem fields) := by
  unfold readMapping
  dsimp only
  split
  · exact blamesText_readReference.bind fun _ => blamesText_readParameter.bind fun _ => .pure _
  · exact blamesText_readReference.bind fun _ => blamesText_readParameter.bind fun _ =>
      blamesText_readYesNo.bind fun _ => .pure _
  · exact blamesText_refuse _ _

theorem blamesText_readInlining (perItem : Bool) : BlamesText (readInlining perItem fields) := by
  unfold readInlining
  dsimp only
  split
  · exact blamesText_readKeyword.bind fun _ => blamesText_readReference.bind fun _ => .pure _
  · exact blamesText_refuse _ _

theorem blamesText_readCollapse : BlamesText (readCollapse fields) := by
  unfold readCollapse
  split
  · exact blamesText_readReference.bind fun _ =>
      (BlamesText.mapM (fun _ => blamesText_readBranch) _).bind fun _ => .pure _
  · exact blamesText_refuse _ _

theorem blamesText_readMetavar : BlamesText (readMetavar fields) := by
  unfold readMetavar
  split
  · exact blamesText_readMetavarText.bind fun _ => blamesText_readReference.bind fun _ => .pure _
  · exact blamesText_refuse _ _

theorem blamesText_readDescribe : BlamesText (readDescribe fields) := by
  unfold readDescribe
  split
  · exact blamesText_readReference.bind fun _ => .pure _
  · exact blamesText_refuse _ _

theorem blamesText_parse (type : DirectiveType) (text : Bytes) : BlamesText (parse type text) := by
  cases type with
  | bool => exact blamesText_readBool
  | enum => exact blamesText_readEnum
  | anything => exact blamesText_readAnything
  | list => exact blamesText_readList
  | special => exact blamesText_readSpecial
  | flag => exact blamesText_readFlag
  | aliasing => exact blamesText_readAlias
  | map => exact blamesText_readMapping false
  | listMap => exact blamesText_readMapping true
  | inline => exact blamesText_readInlining false
  | listInline => exact blamesText_readInlining true
  | collapse => exact blamesText_readCollapse
  | metavar => exact blamesText_readMetavar
  | describe => exact blamesText_readDescribe

/-- The first directive that cannot be read is refused for its text. -/
theorem ofText_of_parseFrom {position : Nat} {sources : List Source} {e : CompileError}
    (h : parseFrom position sources = .error e) : e.cause.OfText := by
  induction sources generalizing position with
  | nil => cases h
  | cons source sources ih =>
    unfold parseFrom at h
    split at h
    · next cause hcause =>
      cases h
      exact blamesText_parse _ _ cause hcause
    · exact ih (map_eq_error_iff.mp h)

end Directive

end Elvis
