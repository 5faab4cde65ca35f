/-!
  **The reader's options.**

  Options may be given by name as settings.  A setting that is not given has its default value, and
  an unknown name is ignored.
-/

namespace Formula

/-- What becomes of a letter or a command that no notation claims. -/
inductive Promotion where
  /-- It is an error. -/
  | never
  /-- A single letter becomes a symbol. -/
  | singleLetter
  /-- An unknown command without arguments becomes a symbol as well. -/
  | always
deriving DecidableEq, Repr

namespace Promotion

def name : Promotion → String
  | .never => "none"
  | .singleLetter => "single-letter"
  | .always => "all"

def ofName? (name : String) : Option Promotion :=
  [never, singleLetter, always].find? (·.name == name)

end Promotion

structure Options where
  /-- The head of the call that two expressions side by side stand for, if they may stand so. -/
  invisibleOperator : Option String := some "Multiply"
  promotion : Promotion := .singleLetter
deriving DecidableEq, Repr

/-- A value that a setting is given. -/
inductive Setting where
  | null
  | truth
  | number
  | text (value : String)
  | list (items : List Setting)
  | record (fields : List (String × Setting))

namespace Setting

/-- An operator for juxtaposition: a head, or none. -/
def operator? : Setting → Option (Option String)
  | .null => some none
  | .text head => some (some head)
  | _ => none

/-- A policy: its name, alone or as the only field of a record without a value. -/
def promotion? : Setting → Option Promotion
  | .text name => Promotion.ofName? name
  | .record [(name, .null)] => Promotion.ofName? name
  | _ => none

end Setting

namespace Options

def withOperator? (options : Options) : Option Setting → Option Options
  | none => some options
  | some setting => setting.operator?.map fun head => { options with invisibleOperator := head }

def withPromotion? (options : Options) : Option Setting → Option Options
  | none => some options
  | some setting => setting.promotion?.map fun promotion => { options with promotion }

/-- Options from settings by name, or by position in the order operator, policy. -/
def ofSetting? : Setting → Option Options
  | .record fields => do
    let options ← withOperator? {} (fields.lookup "invisible_operator")
    options.withPromotion? (fields.lookup "promote_unknown_symbols")
  | .list items =>
    if items.length ≤ 2 then do
      let options ← withOperator? {} items[0]?
      options.withPromotion? items[1]?
    else none
  | _ => none

end Options

end Formula
