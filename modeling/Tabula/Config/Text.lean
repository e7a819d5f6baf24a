import Tabula.Config
import Tabula.Toml.Document

/-!
Settings from TOML text. The text holds at most one table, `runtime`, and there nothing but the two settings. The
settings may also be given as an array, in their order. `Toml` stands for the `toml` library and the functions from
`applySeed` to `ofEntries` for what `serde` derives for a record with defaults that denies unknown fields.
-/

namespace Tabula

inductive ReadFailure where
  | notFound
  | isDirectory
  | notText
deriving DecidableEq

def ReadFailure.detail : ReadFailure → String
  | notFound => "No such file or directory (os error 2)"
  | isDirectory => "Is a directory (os error 21)"
  | notText => "stream did not contain valid UTF-8"

inductive ConfigError where
  | read (path : String) (cause : ReadFailure)
  | parse
deriving DecidableEq

def ConfigError.message : ConfigError → String
  | read path cause => s!"failed to read config file {path}: " ++ cause.detail
  | parse => "invalid runtime config"

namespace Config

def applySeed (c : Config) : Toml → Option Config
  | .integer i => if 0 ≤ i then some (c.withSeed i.toNat.toUInt64) else none
  | _ => none

def applyTrap (c : Config) : Toml → Option Config
  | .boolean b => some (c.withTrap b)
  | _ => none

def apply (c : Config) (setting : String × Toml) : Option Config :=
  match setting.1 with
  | "random_seed" => c.applySeed setting.2
  | "trap_division_by_zero" => c.applyTrap setting.2
  | _ => none

/-- The settings in their order. Missing ones keep their defaults, and what follows them is not looked at. -/
def ofItems : List Toml → Option Config
  | [] => some {}
  | [seed] => ({} : Config).applySeed seed
  | seed :: trap :: _ => do
    let c ← ({} : Config).applySeed seed
    c.applyTrap trap

def ofSettings : Toml → Option Config
  | .table _ entries => entries.foldlM apply {}
  | .array items => ofItems items
  | _ => none

def ofEntries : Toml.Entries → Option Config
  | [] => some {}
  | [("runtime", settings)] => ofSettings settings
  | _ => none

def parse (text : String) : Except ConfigError Config :=
  match (Toml.Document.parse? text).bind ofEntries with
  | some c => .ok c
  | none => .error .parse

def ofFile (path : String) (content : Except ReadFailure ByteArray) : Except ConfigError Config :=
  match content with
  | .error cause => .error (.read path cause)
  | .ok bytes =>
    match String.fromUTF8? bytes with
    | some text => parse text
    | none => .error (.read path .notText)

end Config

end Tabula
