import FlightMath.Config.Text
import FlightMath.Median.Network

/-! # Configuration parameters

Parameters come in two forms. `Params` holds values of any kind, as someone may have put them
there; `Settings` holds a mode and a window size, so that nothing invalid can be written down.
`Params.check` goes from the first form to the second, and `Settings.toParams` goes back.

`Params.ofValue` reads the unchecked form from a nested value. The namespaces are examined first,
then the mode is converted, then the window is taken as it stands, and last the result is checked.
Keys other than the two that it knows are refused outside the namespaces and ignored inside them.
-/

namespace FlightMath

/-- Why parameters are invalid. -/
inductive ParamsError where
  | unknownNamespaces (names : List Value)
  | unknownModeWord
  | notModeOrWord
  | notMode
  | notInteger
  | unsupportedWindow

/-- The words of the modes and the window sizes, as error texts list them. -/
def alternatives (texts : List String) : String :=
  ", ".intercalate texts

/-- The text that reports the error. -/
def ParamsError.message : ParamsError → String
  | .unknownNamespaces names => "Unknown namespaces: " ++ (Value.list names).literal
  | .unknownModeWord =>
      "trig.approx_mode must be one of " ++ alternatives (ApproxMode.all.map ApproxMode.word)
  | .notModeOrWord => "trig.approx_mode must be an ApproxMode or string"
  | .notMode => "trig.approx_mode must be an ApproxMode"
  | .notInteger => "median.window must be an int"
  | .unsupportedWindow =>
      "median.window must be one of " ++
        alternatives (WindowSize.all.map fun size => toString size.toNat)

/-- Why no parameters can be read from a value. -/
inductive ReadError where
  | kind (cause : KindError)
  | params (cause : ParamsError)

/-- Checked parameters. -/
structure Settings where
  mode : ApproxMode
  window : WindowSize
deriving DecidableEq, Repr

/-- The settings in use when none are chosen. -/
def Settings.standard : Settings := ⟨ApproxMode.standard, .three⟩

instance : Inhabited Settings :=
  ⟨Settings.standard⟩

/-- Unchecked parameters. -/
structure Params where
  mode : Value
  window : Value

/-- The settings as parameters. -/
def Settings.toParams (settings : Settings) : Params where
  mode := .mode settings.mode
  window := .int settings.window.toNat

namespace Params

/-- The parameters in use when none are chosen. -/
def standard : Params := Settings.standard.toParams

instance : Inhabited Params :=
  ⟨standard⟩

/-- The settings that the parameters describe. Truth values are no integers here. -/
def check (params : Params) : Except ParamsError Settings :=
  match params.mode with
  | .mode mode =>
      match params.window with
      | .int count =>
          match WindowSize.ofInt? count with
          | some window => .ok ⟨mode, window⟩
          | none => .error .unsupportedWindow
      | _ => .error .notInteger
  | _ => .error .notMode

/-- The parameters pass their check. -/
def validate (params : Params) : Except ParamsError Unit :=
  params.check.map fun _ => ()

/-- A mode by itself, or by its word in letters of either case. -/
def readMode : Value → Except ParamsError ApproxMode
  | .mode mode => .ok mode
  | .text word =>
      match ApproxMode.ofWord? word.toLower with
      | some mode => .ok mode
      | none => .error .unknownModeWord
  | _ => .error .notModeOrWord

/-- The names of the two namespaces. -/
def namespaces : List Value := [.text "trig", .text "median"]

/-- Refuses a value with keys other than the namespaces. -/
def checkNamespaces (data : Value) : Except ReadError Unit := do
  let keys ← data.keys.mapError .kind
  let unknown := keys.filter fun key => !namespaces.any key.sameKey
  if unknown.isEmpty then .ok ()
  else
    let names ← (Value.sortKeys unknown).mapError .kind
    .error (.params (.unknownNamespaces names))

/-- The contents of a namespace; an absent one is empty. -/
def readNamespace (data : Value) (name : String) : Except ReadError Value :=
  match data with
  | .table entries => .ok ((Value.field? entries name).getD (.table []))
  | _ => .error (.kind .notTable)

/-- The mode that the contents of the `trig` namespace choose, or the standard one. -/
def readTrig (contents : Value) : Except ReadError ApproxMode :=
  match contents.lookup "approx_mode" with
  | .error cause => .error (.kind cause)
  | .ok none => .ok Settings.standard.mode
  | .ok (some value) => (readMode value).mapError .params

/-- What the contents of the `median` namespace give as the window, or the standard one. -/
def readMedian (contents : Value) : Except ReadError Value :=
  match contents.lookup "window" with
  | .error cause => .error (.kind cause)
  | .ok held => .ok (held.getD standard.window)

/-- The parameters that a nested value describes, checked, with standard ones for those left out. -/
def ofValue (data : Value) : Except ReadError Params := do
  checkNamespaces data
  let mode ← readTrig (← readNamespace data "trig")
  let window ← readMedian (← readNamespace data "median")
  let params : Params := ⟨.mode mode, window⟩
  params.validate.mapError .params
  return params

/-- A mode is shown by its word, and any other value as it is. -/
def plainValue : Value → Value
  | .mode mode => .text mode.word
  | value => value

/-- The parameters as a nested value. -/
def toValue (params : Params) : Value :=
  .table
    [("trig", .table [("approx_mode", plainValue params.mode)]),
      ("median", .table [("window", plainValue params.window)])]

@[simp] theorem check_toParams (settings : Settings) : settings.toParams.check = .ok settings := by
  simp [check, Settings.toParams]

end Params

end FlightMath
