import Retrace.Files.Host
import Retrace.Toml.Reading

/-! Settings of a replay, kept in a TOML file. -/
namespace Retrace

structure Settings where
  /-- The number of steps that a recording may have. -/
  maxSteps : Option Nat
deriving DecidableEq

/-- Why there are no settings. -/
inductive SettingsError
  | unreadable (error : FileError)
  | malformed
  | zeroSteps
deriving DecidableEq

namespace SettingsError

/-- The wording. What is wrong with a TOML text is not told. -/
def message : SettingsError → String
  | .unreadable e => "Failed to read config: " ++ e.message
  | .malformed => "Config TOML parse error"
  | .zeroSteps => "Invalid config: max_steps must be greater than 0"

def chain : SettingsError → List String
  | .unreadable e => [(SettingsError.unreadable e).message, e.message]
  | e => [e.message]

end SettingsError

namespace Settings

def default : Settings := ⟨none⟩

/-- The settings in a text. Keys other than those of settings are allowed. -/
def ofText (text : String) : Except SettingsError Settings := do
  let some entries := Toml.parse text | throw .malformed
  match entries.lookup "max_steps" with
  | none => return default
  | some (.integer (.ofNat 0)) => throw .zeroSteps
  | some (.integer (.ofNat n)) => return ⟨some n⟩
  | some _ => throw .malformed

def load [Monad m] [Host m] (path : String) : m (Except SettingsError Settings) := do
  match ← Host.readText path with
  | .ok text => return ofText text
  | .error e => return .error (.unreadable e)

end Settings
end Retrace
