import WorkPlan.Settings.Basic
import WorkPlan.Toml.Document

/-!
Settings from TOML text. Two keys at the top level count, each of which may be absent; all else only
has to be well formed.
-/

namespace WorkPlan.Settings

/-- The settings that the fields of a document give, before the placeholder is checked. -/
def ofFields? (fields : Toml.Fields) : Option Settings := do
  let policy ←
    match fields.get? "backward_policy" with
    | none => some .follow
    | some (.str name) => PullPolicy.ofName? name
    | some _ => none
  let placeholder ←
    match fields.get? "placeholder_duration_days" with
    | none => some 1
    | some (.int n) => some n
    | some _ => none
  return { policy, placeholder }

def ofToml (text : String) : Except SettingsError Settings :=
  match (Toml.document? text).bind ofFields? with
  | some settings => settings.checked
  | none => .error .malformed

/-- The settings that a file gives, from its bytes if there is such a file. -/
def ofFile (bytes : Option ByteArray) : Except SettingsError Settings :=
  match bytes.bind String.fromUTF8? with
  | some text => ofToml text
  | none => .error .unreadable

end WorkPlan.Settings
