import Gateware.Config.Basic
import Gateware.Toml.Document

/-! # Reading a configuration

A configuration is a TOML document with one table per section. A section may also be an array of its
settings in order. Settings that are missing keep their defaults, and unknown ones are refused.
-/
namespace Gateware

inductive ConfigError where
  /-- the file cannot be read as text -/
  | unreadable
  /-- the text is no document with these settings -/
  | malformed
  | invalid (fault : ConfigFault)
deriving DecidableEq, Repr

def Toml.settings? (names : List String) : Toml → Option (List (Option Toml))
  | .table entries =>
    if entries.all fun e => names.contains e.1 then some (names.map (Toml.find? entries)) else none
  | .list items => some ((List.range names.length).map fun i => items[i]?)
  | _ => none

def optionalSetting {α : Type} (default : α) (read : Toml → Option α) : Option Toml → Option α
  | none => some default
  | some t => read t

def Toml.asText? : Toml → Option String
  | .text s => some s
  | _ => none

def Toml.asCount? : Toml → Option Nat
  | .integer (.ofNat n) => some n
  | _ => none

def Toml.asTruth? : Toml → Option Bool
  | .truth b => some b
  | _ => none

def FinalizeConfig.ofToml? (t : Toml) : Option FinalizeConfig := do
  match ← t.settings? ["max_rounds"] with
  | [maxRounds] => return { maxRounds := ← optionalSetting 64 Toml.asCount? maxRounds }
  | _ => none

def NamingConfig.ofToml? (t : Toml) : Option NamingConfig := do
  match ← t.settings? ["separator", "default_hint", "numeric_suffix"] with
  | [separator, hint, suffix] =>
    return {
      separator := ← optionalSetting "_" Toml.asText? separator
      defaultHint := ← optionalSetting "sig" Toml.asText? hint
      numericSuffix := ← optionalSetting true Toml.asTruth? suffix }
  | _ => none

def DomainConfig.ofToml? (t : Toml) : Option DomainConfig := do
  match ← t.settings? ["default_memory_domain", "create_sync"] with
  | [domain, create] =>
    return {
      defaultMemoryDomain := ← optionalSetting "sync" Toml.asText? domain
      createSync := ← optionalSetting true Toml.asTruth? create }
  | _ => none

def Config.ofToml? (t : Toml) : Option Config := do
  match ← t.settings? ["finalize", "naming", "domains"] with
  | [finalize, naming, domains] =>
    return {
      finalize := ← optionalSetting {} FinalizeConfig.ofToml? finalize
      naming := ← optionalSetting {} NamingConfig.ofToml? naming
      domains := ← optionalSetting {} DomainConfig.ofToml? domains }
  | _ => none

def Config.parse (s : String) : Except ConfigError Config :=
  match (Toml.parse s).bind fun entries => Config.ofToml? (.table entries) with
  | none => .error .malformed
  | some config =>
    match config.fault? with
    | some fault => .error (.invalid fault)
    | none => .ok config

/-- What is found where a configuration file belongs. -/
inductive ConfigFile where
  | missing
  | directory
  | contents (bytes : ByteArray)

/-- The configuration of a file; without one the defaults hold. -/
def ConfigFile.load : ConfigFile → Except ConfigError Config
  | .missing => .ok {}
  | .directory => .error .unreadable
  | .contents bytes =>
    match String.fromUTF8? bytes with
    | none => .error .unreadable
    | some s => Config.parse s

end Gateware
