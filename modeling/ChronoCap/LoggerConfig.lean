/- module: ChronoCap/LoggerConfig
   source: include/chrono_cap/logger_config.hpp
   digest: The settings of each topic, how they are loaded, and whether a topic is recorded. -/

import ChronoCap.Json
import ChronoCap.PayloadCodec
import Mathlib.Logic.Function.Basic

set_option autoImplicit false
set_option relaxedAutoImplicit false

namespace ChronoCap

structure TopicConfig where
  name : List UInt8 := []
  structId : UInt16 := 0
  enabled : Bool := true
  deriving DecidableEq, Repr

structure LoggerConfig where
  byName : List UInt8 → Option TopicConfig := fun _ => none

/-- A topic that the settings do not name is enabled; one whose id they have wrong is not. -/
def LoggerConfig.isEnabled (config : LoggerConfig) (T : TopicType) : Bool :=
  match config.byName T.topicName with
  | none => true
  | some cfg => if cfg.structId ≠ T.id then false else cfg.enabled

namespace LoggerConfig

/-- "topics" -/
def topicsKey : List UInt8 := [0x74, 0x6F, 0x70, 0x69, 0x63, 0x73]

/-- "name" -/
def nameKey : List UInt8 := [0x6E, 0x61, 0x6D, 0x65]

/-- "struct_id" -/
def structIdKey : List UInt8 := [0x73, 0x74, 0x72, 0x75, 0x63, 0x74, 0x5F, 0x69, 0x64]

/-- "enabled" -/
def enabledKey : List UInt8 := [0x65, 0x6E, 0x61, 0x62, 0x6C, 0x65, 0x64]

/-- The settings one entry makes; `none` is an exception. -/
def readEntry (lib : Json.Library) (entry : Json) : Option TopicConfig := do
  let name ← entry.value lib.getString nameKey []
  let structId ← entry.value lib.getUint16 structIdKey 0
  let enabled ← entry.value lib.getBool enabledKey true
  return { name, structId, enabled }

/-- `by_name_[cfg.name] = cfg`, for an entry with a name. -/
def add (config : LoggerConfig) (cfg : TopicConfig) : LoggerConfig :=
  if cfg.name.isEmpty then config
  else { byName := Function.update config.byName cfg.name (some cfg) }

/-- The loop over the entries; the answer is `none` if an exception leaves it. -/
def loadEntries (lib : Json.Library) : List Json → LoggerConfig → Option Bool × LoggerConfig
  | [], config => (some true, config)
  | entry :: entries, config =>
      match readEntry lib entry with
      | none => (none, config)
      | some cfg => loadEntries lib entries (config.add cfg)

/-- LoadFromFile for a path at which `file` can be read, if it opens. -/
def loadFromFile (lib : Json.Library) (file : Option (List UInt8)) (config : LoggerConfig) :
    Option Bool × LoggerConfig :=
  match file with
  | none => (some false, config)
  | some content =>
      match lib.parse content with
      -- the exception of the parser is caught
      | none => (some false, config)
      | some j =>
          -- by_name_ is cleared before the document is looked at
          let config : LoggerConfig := {}
          match j.member topicsKey with
          | some (.array entries) => loadEntries lib entries config
          | _ => (some false, config)

end LoggerConfig

end ChronoCap
