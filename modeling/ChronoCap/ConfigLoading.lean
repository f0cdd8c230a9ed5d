/- module: ChronoCap/ConfigLoading
   source: include/chrono_cap/logger_config.hpp
   digest: What the settings make of a document: which topics they enable, and which documents and
           settings LoadFromFile survives. -/

import ChronoCap.LoggerConfig
import Mathlib.Data.List.Basic

set_option autoImplicit false
set_option relaxedAutoImplicit false

namespace ChronoCap.ConfigLoading

open ChronoCap.LoggerConfig

section Cases

variable {lib : Json.Library} {file : Option (List UInt8)}

theorem loadFromFile_unparsed (unparsed : file.bind lib.parse = none) (config : LoggerConfig) :
    loadFromFile lib file config = (some false, config) := by
  cases file with
  | none => rfl
  | some content =>
      rw [Option.bind_some] at unparsed
      rw [loadFromFile, unparsed]

/-- Once a document is there, the settings before the call play no part. -/
theorem loadFromFile_array {j : Json} {entries : List Json}
    (parsed : file.bind lib.parse = some j) (topics : j.member topicsKey = some (.array entries))
    (config : LoggerConfig) : loadFromFile lib file config = loadEntries lib entries {} := by
  cases file with
  | none => contradiction
  | some content =>
      rw [Option.bind_some] at parsed
      simp only [loadFromFile, parsed, topics]

theorem loadFromFile_missing {j : Json} (parsed : file.bind lib.parse = some j)
    (missing : ∀ entries, j.member topicsKey ≠ some (.array entries)) (config : LoggerConfig) :
    loadFromFile lib file config = (some false, {}) := by
  cases file with
  | none => contradiction
  | some content =>
      rw [Option.bind_some] at parsed
      simp only [loadFromFile, parsed]

end Cases

/-! The format of an entry. -/

/-- The fields an entry has are of the type they should be. -/
structure Typed (entry : Json) : Prop where
  object : entry.isObject = true
  name : ∀ v, entry.member nameKey = some v → ∃ s, v = .string s
  structId : ∀ v, entry.member structIdKey = some v → ∃ n, v = .integer n
  enabled : ∀ v, entry.member enabledKey = some v → ∃ b, v = .boolean b

def nameOf (entry : Json) : Option (List UInt8) :=
  match entry.member nameKey with
  | some (.string s) => some s
  | _ => none

def structIdOf (entry : Json) : Int :=
  match entry.member structIdKey with
  | some (.integer n) => n
  | _ => 0

def enabledOf (entry : Json) : Bool :=
  match entry.member enabledKey with
  | some (.boolean b) => b
  | _ => true

def lastNamed (entries : List Json) (name : List UInt8) : Option Json :=
  (entries.filter (fun entry => nameOf entry = some name)).getLast?

/-- The entry says that the topic is to be recorded, under the id that the registry has for it. -/
def Selects (entry : Json) (T : TopicType) : Prop :=
  enabledOf entry = true ∧ structIdOf entry = T.id.toNat

/-- No entry has the topic's name, or the last one that has it selects the topic. -/
def Enables (entries : List Json) (T : TopicType) : Prop :=
  ∀ entry, lastNamed entries T.topicName = some entry → Selects entry T

/-- The last entry with the topic's name, if there is one, has an id that is right or differs from
the right one also modulo `2 ^ 16`, or it disables the topic. An entry without a name does not
count: one that had the name of a nameless topic would have to select it. -/
def Unmasked (entries : List Json) (T : TopicType) : Prop :=
  ∀ entry, lastNamed entries T.topicName = some entry →
    if T.topicName = [] then Selects entry T
    else enabledOf entry = false ∨ structIdOf entry = T.id.toNat ∨
      ¬ (2 ^ 16 : Int) ∣ structIdOf entry - T.id.toNat

/-- The settings an entry makes. -/
def settings (entry : Json) : TopicConfig where
  name := (nameOf entry).getD []
  structId := UInt16.ofInt (structIdOf entry)
  enabled := enabledOf entry

section Typed

variable {lib : Json.Library} {entry : Json}

theorem readEntry_of_typed (converts : lib.Converts) (typed : Typed entry) :
    readEntry lib entry = some (settings entry) := by
  have name : entry.value lib.getString nameKey [] = some ((nameOf entry).getD []) := by
    cases present : entry.member nameKey with
    | none => simp [Json.value_of_none typed.object present, nameOf, present]
    | some v =>
        obtain ⟨s, rfl⟩ := typed.name v present
        simp [Json.value_of_some typed.object present, nameOf, present, converts.string]
  have structId : entry.value lib.getUint16 structIdKey 0 =
      some (UInt16.ofInt (structIdOf entry)) := by
    cases present : entry.member structIdKey with
    | none =>
        rw [Json.value_of_none typed.object present, structIdOf, present]
        rfl
    | some v =>
        obtain ⟨n, rfl⟩ := typed.structId v present
        simp [Json.value_of_some typed.object present, structIdOf, present, converts.integer]
  have enabled : entry.value lib.getBool enabledKey true = some (enabledOf entry) := by
    cases present : entry.member enabledKey with
    | none => simp [Json.value_of_none typed.object present, enabledOf, present]
    | some v =>
        obtain ⟨b, rfl⟩ := typed.enabled v present
        simp [Json.value_of_some typed.object present, enabledOf, present, converts.boolean]
  rw [readEntry, name, structId, enabled]
  rfl

theorem lastNamed_cons (entry : Json) (entries : List Json) (name : List UInt8) :
    lastNamed (entry :: entries) name =
      (lastNamed entries name).or (if nameOf entry = some name then some entry else none) := by
  unfold lastNamed
  rw [List.filter_cons]
  by_cases named : nameOf entry = some name
  · rw [if_pos (decide_eq_true named), if_pos named, List.getLast?_cons]
    cases (entries.filter (fun entry => nameOf entry = some name)).getLast? <;> rfl
  · rw [if_neg (by simpa using named), if_neg named, Option.or_none]

theorem byName_add (config : LoggerConfig) (cfg : TopicConfig) {name : List UInt8}
    (nonempty : name ≠ []) :
    (config.add cfg).byName name = if cfg.name = name then some cfg else config.byName name := by
  unfold add
  by_cases empty : cfg.name = []
  · rw [if_pos (by rw [empty]; rfl), if_neg]
    rw [empty]
    exact nonempty.symm
  · rw [if_neg (by simpa using empty)]
    by_cases same : cfg.name = name
    · subst same
      rw [if_pos rfl]
      exact Function.update_self _ _ _
    · rw [if_neg same]
      exact Function.update_of_ne (Ne.symm same) _ _

/-- No entry makes settings for an empty name. -/
theorem byName_add_nil (config : LoggerConfig) (cfg : TopicConfig) :
    (config.add cfg).byName [] = config.byName [] := by
  unfold add
  by_cases empty : cfg.name = []
  · rw [if_pos (by rw [empty]; rfl)]
  · rw [if_neg (by simpa using empty)]
    exact Function.update_of_ne (Ne.symm empty) _ _

/-- The last entry for a name is the one that counts. -/
theorem loadEntries_of_typed (converts : lib.Converts) (entries : List Json)
    (typed : ∀ entry ∈ entries, Typed entry) (config : LoggerConfig) :
    ∃ config', loadEntries lib entries config = (some true, config') ∧
      config'.byName [] = config.byName [] ∧
      ∀ name, name ≠ [] →
        config'.byName name = ((lastNamed entries name).map settings).or (config.byName name) := by
  induction entries generalizing config with
  | nil => exact ⟨config, rfl, rfl, fun name _ => rfl⟩
  | cons entry entries ih =>
      obtain ⟨first, others⟩ := List.forall_mem_cons.mp typed
      obtain ⟨config', loaded, nameless, named⟩ := ih others (config.add (settings entry))
      refine ⟨config', ?_, nameless.trans (byName_add_nil _ _), ?_⟩
      · rw [loadEntries, readEntry_of_typed converts first]
        exact loaded
      · intro name nonempty
        have same : (settings entry).name = name ↔ nameOf entry = some name := by
          unfold settings
          cases nameOf entry with
          | none => simpa using nonempty.symm
          | some s => simp
        rw [named name nonempty, byName_add _ _ nonempty, lastNamed_cons]
        cases lastNamed entries name with
        | some later => rfl
        | none =>
            by_cases here : nameOf entry = some name
            · rw [if_pos (same.mpr here), if_pos here]
              rfl
            · rw [if_neg (fun h => here (same.mp h)), if_neg here]
              rfl

end Typed

/-- `static_cast` to 16 bits hides a difference that they do not hold. -/
theorem ofInt_eq_iff (n : Int) (id : UInt16) :
    UInt16.ofInt n = id ↔ (2 ^ 16 : Int) ∣ n - id.toNat := by
  have bound := id.toNat_lt
  have value : (UInt16.ofInt n).toNat = (n % 2 ^ 16).toNat := by
    rw [UInt16.ofInt, UInt16.toNat_ofNat']
    omega
  rw [← UInt16.toNat_inj, value]
  omega

/-- The answer of IsEnabled against that of the document, for one topic. -/
theorem isEnabled_iff {entries : List Json} {config : LoggerConfig} {T : TopicType}
    (nameless : config.byName [] = none)
    (named : ∀ name, name ≠ [] → config.byName name = (lastNamed entries name).map settings) :
    (config.isEnabled T = true ↔ Enables entries T) ↔ Unmasked entries T := by
  unfold isEnabled Enables Unmasked
  by_cases empty : T.topicName = []
  · rw [empty, nameless]
    simp
  · rw [named _ empty]
    cases last : lastNamed entries T.topicName with
    | none => simp
    | some entry =>
        have cast := ofInt_eq_iff (structIdOf entry) T.id
        have right : structIdOf entry = T.id.toNat →
            (2 ^ 16 : Int) ∣ structIdOf entry - T.id.toNat := by
          intro same
          rw [same, Int.sub_self]
          exact Int.dvd_zero _
        have answer : (if UInt16.ofInt (structIdOf entry) ≠ T.id then false
            else enabledOf entry) = true ↔
              (2 ^ 16 : Int) ∣ structIdOf entry - T.id.toNat ∧ enabledOf entry = true := by
          rw [← cast]
          by_cases same : UInt16.ofInt (structIdOf entry) = T.id <;> simp [same]
        simp only [Option.map_some, settings, answer, Option.some.injEq, forall_eq', Selects,
          if_neg empty]
        cases enabledOf entry with
        | false => simp
        | true => tauto

/-- For a document of the right form: it is loaded, and IsEnabled says what the document says, for
just those topics whose last entry has no wrong id that the 16 bits take for the right one. -/
theorem loadFromFile_iff (lib : Json.Library) (converts : lib.Converts) (content : List UInt8)
    (j : Json) (entries : List Json) (parsed : lib.parse content = some j)
    (topics : j.member topicsKey = some (.array entries)) (typed : ∀ entry ∈ entries, Typed entry)
    (config : LoggerConfig) :
    ∃ config', loadFromFile lib (some content) config = (some true, config') ∧
      ∀ T, (config'.isEnabled T = true ↔ Enables entries T) ↔ Unmasked entries T := by
  obtain ⟨config', loaded, nameless, named⟩ := loadEntries_of_typed converts entries typed {}
  refine ⟨config', ?_, ?_⟩
  · rw [loadFromFile_array (show (some content).bind lib.parse = some j from parsed) topics]
    exact loaded
  · intro T
    apply isEnabled_iff nameless
    intro name nonempty
    rw [named name nonempty]
    exact Option.or_none

/-- A library that knows one text, and converts as documented. -/
def knows (text : List UInt8) (document : Json) : Json.Library where
  parse content := if content = text then some document else none
  getString
    | .string s => some s
    | _ => none
  getUint16
    | .integer n => some (UInt16.ofInt n)
    | .boolean b => some (if b then 1 else 0)
    | _ => none
  getBool
    | .boolean b => some b
    | _ => none

theorem knows_parse (text : List UInt8) (document : Json) :
    (some text).bind (knows text document).parse = some document := by
  simp [knows]

def document (entries : List Json) : Json :=
  .object (fun key => if key = topicsKey then some (.array entries) else none)

/-- An entry for /joy, without "enabled". -/
def joyEntry (structId : Int) : Json :=
  .object (fun key =>
    if key = nameKey then some (.string joy.topicName)
    else if key = structIdKey then some (.integer structId) else none)

/-- The text {"topics":[{"name":"/joy","struct_id":65540}]} -/
def joyText : List UInt8 :=
  [0x7B, 0x22] ++ topicsKey ++ [0x22, 0x3A, 0x5B, 0x7B, 0x22] ++ nameKey ++ [0x22, 0x3A, 0x22] ++
    joy.topicName ++ [0x22, 0x2C, 0x22] ++ structIdKey ++
      [0x22, 0x3A, 0x36, 0x35, 0x35, 0x34, 0x30, 0x7D, 0x5D, 0x7D]

theorem typed_joyEntry (n : Int) : Typed (joyEntry n) where
  object := rfl
  name _ present := ⟨joy.topicName, (Option.some.inj present).symm⟩
  structId _ present := ⟨n, (Option.some.inj present).symm⟩
  enabled _ present := nomatch present

theorem loadFromFile_iff_joy :
    ∃ config', loadFromFile (knows joyText (document [joyEntry 65540])) (some joyText) {} =
        (some true, config') ∧
      ∀ T, (config'.isEnabled T = true ↔ Enables [joyEntry 65540] T) ↔
        Unmasked [joyEntry 65540] T :=
  loadFromFile_iff _ ⟨fun _ => rfl, fun _ => rfl, fun _ => rfl⟩ joyText (document [joyEntry 65540])
    [joyEntry 65540] (knows_parse _ _) rfl (by simpa using typed_joyEntry 65540) {}

/-- The id 65540 is taken for 4, and the topic is recorded. -/
theorem joy_enabled_under_wrong_id :
    (loadFromFile (knows joyText (document [joyEntry 65540])) (some joyText) {}).1 = some true ∧
      (loadFromFile (knows joyText (document [joyEntry 65540])) (some joyText) {}).2.isEnabled
        joy = true ∧
      ¬ Enables [joyEntry 65540] joy := by
  have loaded : loadFromFile (knows joyText (document [joyEntry 65540])) (some joyText) {} =
      loadEntries (knows joyText (document [joyEntry 65540])) [joyEntry 65540] {} :=
    loadFromFile_array (knows_parse joyText (document [joyEntry 65540])) rfl {}
  rw [loaded]
  refine ⟨by decide, by decide, ?_⟩
  intro enables
  have wrong := (enables (joyEntry 65540) (by rfl)).2
  exact absurd wrong (by decide)

/-! Which documents, and which settings, LoadFromFile survives. -/

/-- All three fields can be read from the entry. -/
structure Readable (lib : Json.Library) (entry : Json) : Prop where
  object : entry.isObject = true
  name : entry.Fits lib.getString nameKey
  structId : entry.Fits lib.getUint16 structIdKey
  enabled : entry.Fits lib.getBool enabledKey

/-- No exception leaves the call, and settings it does not replace are kept. -/
def FailsCleanly (lib : Json.Library) (file : Option (List UInt8)) (config : LoggerConfig) : Prop :=
  ∃ ok, (loadFromFile lib file config).1 = some ok ∧
    (ok = false → (loadFromFile lib file config).2 = config)

/-- Once the file is opened and parsed: "topics" is an array of objects whose fields convert, or it
is no array and there are no settings to lose. -/
def Survivable (lib : Json.Library) (file : Option (List UInt8)) (config : LoggerConfig) : Prop :=
  ∀ j, file.bind lib.parse = some j →
    (∃ entries, j.member topicsKey = some (.array entries) ∧
      ∀ entry ∈ entries, Readable lib entry) ∨
    ((∀ entries, j.member topicsKey ≠ some (.array entries)) ∧ config = {})

section Survivable

variable {lib : Json.Library}

theorem readEntry_eq_none {entry : Json} : readEntry lib entry = none ↔ ¬ Readable lib entry := by
  have fails : readEntry lib entry = none ↔
      entry.value lib.getString nameKey [] = none ∨ entry.value lib.getUint16 structIdKey 0 = none ∨
        entry.value lib.getBool enabledKey true = none := by
    unfold readEntry
    cases entry.value lib.getString nameKey [] with
    | none => simp
    | some name =>
        cases entry.value lib.getUint16 structIdKey 0 with
        | none => simp
        | some structId => cases entry.value lib.getBool enabledKey true <;> simp
  rw [fails, Json.value_eq_none, Json.value_eq_none, Json.value_eq_none]
  constructor
  · rintro (name | structId | enabled) readable
    · exact name ⟨readable.object, readable.name⟩
    · exact structId ⟨readable.object, readable.structId⟩
    · exact enabled ⟨readable.object, readable.enabled⟩
  · intro unreadable
    by_contra fine
    simp only [not_or, not_not] at fine
    obtain ⟨name, structId, enabled⟩ := fine
    exact unreadable ⟨name.1, name.2, structId.2, enabled.2⟩

theorem loadEntries_answer (lib : Json.Library) (entries : List Json) (config : LoggerConfig) :
    ((loadEntries lib entries config).1 = some true ∧ ∀ entry ∈ entries, Readable lib entry) ∨
      ((loadEntries lib entries config).1 = none ∧ ¬ ∀ entry ∈ entries, Readable lib entry) := by
  induction entries generalizing config with
  | nil => exact .inl ⟨rfl, by simp⟩
  | cons entry entries ih =>
      rw [loadEntries, List.forall_mem_cons]
      cases read : readEntry lib entry with
      | none =>
          have unreadable := readEntry_eq_none.mp read
          exact .inr ⟨rfl, fun all => unreadable all.1⟩
      | some cfg =>
          have readable : Readable lib entry := by
            by_contra unreadable
            rw [readEntry_eq_none.mpr unreadable] at read
            contradiction
          rcases ih (config.add cfg) with ⟨ok, all⟩ | ⟨thrown, some⟩
          · exact .inl ⟨ok, readable, all⟩
          · exact .inr ⟨thrown, fun all => some all.2⟩

end Survivable

/-- LoadFromFile keeps its exceptions in and its settings safe on just these files. -/
theorem failsCleanly_iff (lib : Json.Library) (file : Option (List UInt8))
    (config : LoggerConfig) : FailsCleanly lib file config ↔ Survivable lib file config := by
  unfold FailsCleanly Survivable
  cases parsed : file.bind lib.parse with
  | none =>
      rw [loadFromFile_unparsed parsed]
      exact iff_of_true ⟨false, rfl, fun _ => rfl⟩ (fun j h => nomatch h)
  | some j =>
      simp only [Option.some.injEq, forall_eq']
      by_cases topics : ∃ entries, j.member topicsKey = some (.array entries)
      · obtain ⟨entries, topics⟩ := topics
        rw [loadFromFile_array parsed topics, topics]
        rcases loadEntries_answer lib entries {} with ⟨ok, all⟩ | ⟨thrown, unreadable⟩
        · exact iff_of_true ⟨true, ok, fun h => absurd h (by simp)⟩ (.inl ⟨entries, rfl, all⟩)
        · refine iff_of_false ?_ ?_
          · rintro ⟨ok, answer, -⟩
            rw [thrown] at answer
            contradiction
          · rintro (⟨_, ⟨⟩, all⟩ | ⟨missing, -⟩)
            · exact unreadable all
            · exact missing entries rfl
      · rw [not_exists] at topics
        rw [loadFromFile_missing parsed topics]
        constructor
        · rintro ⟨ok, answer, kept⟩
          cases answer
          exact .inr ⟨topics, (kept rfl).symm⟩
        · rintro (⟨entries, array, -⟩ | ⟨-, rfl⟩)
          · exact absurd array (topics entries)
          · exact ⟨false, rfl, fun _ => rfl⟩

/-- Settings that disable /joy. -/
def joyOff : LoggerConfig where
  byName name := if name = joy.topicName then some ⟨joy.topicName, joy.id, false⟩ else none

/-- The text {"topics":[1]} -/
def numberText : List UInt8 :=
  [0x7B, 0x22] ++ topicsKey ++ [0x22, 0x3A, 0x5B, 0x31, 0x5D, 0x7D]

/-- The text {} clears the settings and so enables a topic, though the load fails; an entry that is
a number lets the exception of `value` out. -/
theorem not_failsCleanly :
    (¬ FailsCleanly (knows [0x7B, 0x7D] (.object fun _ => none)) (some [0x7B, 0x7D]) joyOff ∧
      joyOff.isEnabled joy = false ∧
      (loadFromFile (knows [0x7B, 0x7D] (.object fun _ => none)) (some [0x7B, 0x7D]) joyOff).1 =
        some false ∧
      (loadFromFile (knows [0x7B, 0x7D] (.object fun _ => none)) (some [0x7B, 0x7D])
        joyOff).2.isEnabled joy = true) ∧
    ¬ FailsCleanly (knows numberText (document [.integer 1])) (some numberText) {} := by
  have empty : loadFromFile (knows [0x7B, 0x7D] (.object fun _ => none)) (some [0x7B, 0x7D])
      joyOff = (some false, {}) :=
    loadFromFile_missing (knows_parse [0x7B, 0x7D] (.object fun _ => none)) (fun _ => nofun) joyOff
  have number : loadFromFile (knows numberText (document [.integer 1])) (some numberText) {} =
      (none, {}) :=
    loadFromFile_array (knows_parse numberText (document [.integer 1])) rfl {}
  have off : joyOff.isEnabled joy = false := by decide
  have on : ({} : LoggerConfig).isEnabled joy = true := by decide
  refine ⟨⟨?_, off, by rw [empty], by rw [empty]; exact on⟩, ?_⟩
  · rintro ⟨ok, answer, kept⟩
    rw [empty] at answer kept
    cases answer
    have flipped := kept rfl
    rw [← flipped, on] at off
    contradiction
  · rintro ⟨ok, answer, -⟩
    rw [number] at answer
    contradiction

end ChronoCap.ConfigLoading
