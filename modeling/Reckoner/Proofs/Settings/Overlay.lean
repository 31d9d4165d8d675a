import Reckoner.CommandLine.Run
import Reckoner.Proofs.Toml.Documents

/-!
# Settings files overlay the defaults

A document may hold any of the entries that the settings are written with. `ofToml_selected` says
that the settings read from it are the written ones where it has an entry, and the defaults
elsewhere.
-/

namespace Reckoner.Settings

/-! ### Selected entries -/

/-- Which sections a document holds, and which keys these have. -/
structure Selection where
  hasSection : String → Bool
  hasKey : String → String → Bool

namespace Selection

variable (S : Selection) {α β : Type}

/-- Whether there is an entry for a key of a section. -/
def Holds (part key : String) : Prop :=
  S.hasSection part = true ∧ S.hasKey part key = true

instance (part key : String) : Decidable (S.Holds part key) :=
  inferInstanceAs (Decidable (_ ∧ _))

def everything : Selection :=
  ⟨fun _ => true, fun _ _ => true⟩

def ofSection (s : Toml.Section) : Toml.Section :=
  { s with entries := s.entries.filter fun e => S.hasKey s.name e.1 }

def sections (ss : List Toml.Section) : List Toml.Section :=
  (ss.filter fun s => S.hasSection s.name).map S.ofSection

/-- A field of the given settings if there is an entry for it, and else of the default ones. -/
def pick (part key : String) (field : Settings → α) (c : Settings) : α :=
  if S.Holds part key then field c else field default

/-- The given settings where there is an entry, and the default ones elsewhere. -/
def overlay (c : Settings) : Settings where
  server :=
    { host := S.pick "server" "host" (·.server.host) c
      port := S.pick "server" "port" (·.server.port) c
      maxBodyKb := S.pick "server" "max_body_size_kb" (·.server.maxBodyKb) c }
  pool := ⟨S.pick "pool" "workers" (·.pool.workers) c⟩
  costs :=
    { plus := S.pick "costs" "plus_ms" (·.costs.plus) c
      minus := S.pick "costs" "minus_ms" (·.costs.minus) c
      multiply := S.pick "costs" "multiply_ms" (·.costs.multiply) c
      divide := S.pick "costs" "divide_ms" (·.costs.divide) c }
  store := ⟨S.pick "store" "snapshot_path" (·.store.snapshotPath) c⟩

theorem lookup_filter (p : String → Bool) (es : List (String × α)) (key : String) :
    (es.filter fun e => p e.1).lookup key = if p key then es.lookup key else none := by
  induction es with
  | nil => simp
  | cons e es ih =>
    obtain ⟨name, v⟩ := e
    by_cases same : key = name
    · subst same
      cases kept : p key <;> simp [kept, ih]
    · have other : (key == name) = false := beq_false_of_ne same
      cases kept : p name <;> simp [kept, ih, List.lookup_cons, other]

theorem lookup_map (f : α → β) (es : List (String × α)) (key : String) :
    (es.map fun e => (e.1, f e.2)).lookup key = (es.lookup key).map f := by
  induction es with
  | nil => rfl
  | cons e es ih =>
    obtain ⟨name, v⟩ := e
    rw [List.map_cons, List.lookup_cons, List.lookup_cons]
    cases key == name with
    | true => rfl
    | false => exact ih

/-- A selected section is looked up by its name. -/
theorem lookup_sections (ss : List Toml.Section) (part : String) :
    ((S.sections ss).map fun s => (s.name, s.toToml)).lookup part =
      if S.hasSection part then
        ((ss.map fun s => (s.name, s)).lookup part).map fun s => (S.ofSection s).toToml
      else none := by
  have pairs : (S.sections ss).map (fun s => (s.name, s.toToml)) =
      ((ss.map fun s => (s.name, s)).filter fun e => S.hasSection e.1).map
        fun e => (e.1, (S.ofSection e.2).toToml) := by
    rw [sections, List.map_map, List.filter_map, List.map_map]
    rfl
  rw [pairs, lookup_map fun s => (S.ofSection s).toToml, lookup_filter]
  split <;> rfl

/-- The selected entries of a section as a table, which is empty if the section is left out. -/
def table (part : String) (es : List (String × Toml.Plain)) : Toml :=
  .table ((es.filter fun e => S.Holds part e.1).map fun e => (e.1, e.2.toToml))

theorem table_of_held {part : String} (held : S.hasSection part = true)
    (es : List (String × Toml.Plain)) : (S.ofSection ⟨part, es⟩).toToml = S.table part es := by
  simp only [ofSection, Toml.Section.toToml, table, Holds, held, true_and, Bool.decide_eq_true]

theorem table_of_unheld {part : String} (unheld : ¬ S.hasSection part = true)
    (es : List (String × Toml.Plain)) : S.table part es = .table [] := by
  simp [table, Holds, unheld]

end Selection

/-! ### Reading -/

namespace Setting

variable {σ τ : Type} {key : String} {d d' : σ}

/-- Where there is nothing to read, everything stays. -/
theorem readAll_empty (settings : List (Setting σ)) (d : σ) :
    readAll settings d (.table []) = some d := by
  induction settings with
  | nil => rfl
  | cons s settings ih => exact ih

theorem set_text (set : String → σ → σ) (x : String) :
    (text key set).set (.text x) d = some (set x d) :=
  rfl

theorem set_whole {low high n : Int} (fits : low ≤ n ∧ n < high) (set : Int → σ → σ) :
    (whole key low high set).set (.whole n) d = some (set n d) :=
  if_pos fits

theorem set_uint16 (set : UInt16 → σ → σ) (x : UInt16) :
    (whole key 0 UInt16.size fun n => set (UInt16.ofNat n.toNat)).set (.whole x.toNat) d =
      some (set x d) := by
  rw [set_whole ⟨Int.natCast_nonneg _, Int.ofNat_lt.2 x.toNat_lt_size⟩, Int.toNat_natCast,
    UInt16.ofNat_toNat]

theorem set_uint64 (set : UInt64 → σ → σ) (x : UInt64) :
    (uint64 key set).set (.whole x.toNat) d = some (set x d) := by
  rw [uint64, set_whole ⟨Int.natCast_nonneg _, Int.ofNat_lt.2 x.toNat_lt_size⟩, Int.toNat_natCast,
    UInt64.ofNat_toNat]

theorem set_int64 (set : Int64 → σ → σ) (x : Int64) :
    (int64 key set).set (.whole x.toInt) d = some (set x d) := by
  rw [int64, set_whole ⟨x.minValue_le_toInt, Int.lt_add_one_of_le x.toInt_le⟩, Int64.ofInt_toInt]

theorem set_part {settings : List (Setting τ)} {defaults x : τ} {v : Toml}
    (read : readAll settings defaults v = some x) (set : τ → σ → σ) :
    (part key settings defaults set).set v d = some (set x d) := by
  simp [part, read]

/-- A setting that has an entry is taken from it, and one that has none stays. -/
theorem readAll_cons {s : Setting σ} {settings : List (Setting σ)} {es : List (String × Toml)}
    {v : Toml} {held : Prop} [Decidable held]
    (found : es.lookup s.key = if held then some v else none)
    (taken : held → s.set v d = some d') :
    readAll (s :: settings) d (.table es) =
      readAll settings (if held then d' else d) (.table es) := by
  rw [readAll, List.foldlM_cons, found]
  by_cases h : held
  · rw [if_pos h, if_pos h]
    exact congrArg (Option.bind · _) (taken h)
  · rw [if_neg h, if_neg h]
    rfl

end Setting

section

variable (S : Selection) (c : Settings)

/-- A setting is taken from its entry if this is selected, and else it stays. -/
theorem readAll_entry {σ : Type} {s : Setting σ} {settings : List (Setting σ)} {d d' : σ}
    (part : String) (es : List (String × Toml.Plain)) (key : String) {v : Toml.Plain}
    (named : s.key = key) (found : es.lookup key = some v) (taken : s.set v.toToml d = some d') :
    Setting.readAll (s :: settings) d (S.table part es) =
      Setting.readAll settings (if S.Holds part key then d' else d) (S.table part es) := by
  subst named
  refine Setting.readAll_cons ?_ fun _ => taken
  rw [Selection.lookup_map Toml.Plain.toToml,
    Selection.lookup_filter fun key => decide (S.Holds part key), found]
  by_cases held : S.Holds part s.key <;> simp [held]

theorem readAll_server : Setting.readAll Server.settings .default
    (S.table "server" c.server.entries) = some (S.overlay c).server := by
  refine (readAll_entry S "server" c.server.entries "host" rfl rfl
    (Setting.set_text _ c.server.host)).trans ?_
  refine (readAll_entry S "server" c.server.entries "port" rfl rfl
    (Setting.set_uint16 (fun x (s : Server) => { s with port := x }) c.server.port)).trans ?_
  refine (readAll_entry S "server" c.server.entries "max_body_size_kb" rfl rfl
    (Setting.set_uint64 _ c.server.maxBodyKb)).trans (congrArg some ?_)
  simp only [Selection.overlay, Selection.pick]
  split_ifs <;> rfl

theorem readAll_pool : Setting.readAll Pool.settings .default
    (S.table "pool" c.pool.entries) = some (S.overlay c).pool := by
  refine (readAll_entry S "pool" c.pool.entries "workers" rfl rfl
    (Setting.set_uint64 _ c.pool.workers)).trans (congrArg some ?_)
  simp only [Selection.overlay, Selection.pick]
  split_ifs <;> rfl

theorem readAll_costs : Setting.readAll Costs.settings .default
    (S.table "costs" c.costs.entries) = some (S.overlay c).costs := by
  refine (readAll_entry S "costs" c.costs.entries "plus_ms" rfl rfl
    (Setting.set_int64 _ c.costs.plus)).trans ?_
  refine (readAll_entry S "costs" c.costs.entries "minus_ms" rfl rfl
    (Setting.set_int64 _ c.costs.minus)).trans ?_
  refine (readAll_entry S "costs" c.costs.entries "multiply_ms" rfl rfl
    (Setting.set_int64 _ c.costs.multiply)).trans ?_
  refine (readAll_entry S "costs" c.costs.entries "divide_ms" rfl rfl
    (Setting.set_int64 _ c.costs.divide)).trans (congrArg some ?_)
  simp only [Selection.overlay, Selection.pick]
  split_ifs <;> rfl

/-- Settings without a path are written without an entry for it, which is the default. -/
theorem readAll_store : Setting.readAll Storage.settings .default
    (S.table "store" c.store.entries) = some (S.overlay c).store := by
  simp only [Selection.overlay, Selection.pick]
  unfold Storage.entries
  cases c.store.snapshotPath with
  | none => split_ifs <;> rfl
  | some path =>
    refine (readAll_entry S "store" _ "snapshot_path" rfl rfl (Setting.set_text _ path)).trans
      (congrArg some ?_)
    split_ifs <;> rfl

/-- A section is read into its part of the settings, which is still the default one. Where it is
left out, nothing is read into it. -/
theorem readAll_section {τ : Type} {part : String} {inner : List (Setting τ)} {defaults x : τ}
    {set : τ → Settings → Settings} {settings : List (Setting Settings)} {d : Settings}
    {es : List (String × Toml.Plain)}
    (found : (c.sections.map fun s => (s.name, s)).lookup part = some ⟨part, es⟩)
    (read : Setting.readAll inner defaults (S.table part es) = some x)
    (fresh : set defaults d = d) :
    Setting.readAll (.part part inner defaults set :: settings) d
        (Toml.ofSections (S.sections c.sections)) =
      Setting.readAll settings (set x d) (Toml.ofSections (S.sections c.sections)) := by
  have looked := S.lookup_sections c.sections part
  rw [found] at looked
  refine (Setting.readAll_cons looked fun held =>
    Setting.set_part ((congrArg _ (S.table_of_held held es)).trans read) set).trans ?_
  by_cases held : S.hasSection part = true
  · rw [if_pos held]
    rfl
  · rw [S.table_of_unheld held, Setting.readAll_empty, Option.some_inj] at read
    rw [if_neg held, ← read, fresh]
    rfl

/-- The settings read from a document are the written ones where it has an entry, and the default
ones elsewhere. -/
theorem ofToml_selected :
    ofToml (Toml.ofSections (S.sections c.sections)) = some (S.overlay c) := by
  refine (readAll_section S c rfl (readAll_server S c) rfl).trans ?_
  refine (readAll_section S c rfl (readAll_pool S c) rfl).trans ?_
  refine (readAll_section S c rfl (readAll_costs S c) rfl).trans ?_
  refine (readAll_section S c rfl (readAll_store S c) rfl).trans ?_
  rfl

end

/-! ### Written settings -/

/-- The numbers without a sign fit a signed word. -/
structure Fits (c : Settings) : Prop where
  limit : (c.server.maxBodyKb.toNat : Int) ≤ Int64.maxValue.toInt
  workers : (c.pool.workers.toNat : Int) ≤ Int64.maxValue.toInt

instance (name : String) : Decidable (Toml.IsBare name) :=
  decidable_of_iff (name.toList ≠ [] ∧ name.toList.all Toml.isKeyChar = true)
    (and_congr_right fun _ => List.all_eq_true)

theorem isPlain_of_keys {name : String} {es : List (String × Toml.Plain)} (keys : List String)
    (same : es.map Prod.fst = keys) (bare : ∀ word ∈ name :: keys, Toml.IsBare word)
    (distinct : keys.Nodup) (fits : ∀ e ∈ es, e.2.Fits) : Toml.Section.IsPlain ⟨name, es⟩ where
  name := bare name List.mem_cons_self
  keys := fun e member => bare e.1 (List.mem_cons_of_mem _ (same ▸ List.mem_map_of_mem member))
  distinct := same ▸ distinct
  fits := fits

theorem fits_natural {n : Nat} (high : (n : Int) ≤ Int64.maxValue.toInt) :
    (Toml.Plain.whole n).Fits := by
  have least : Int64.minValue.toInt = -9223372036854775808 := rfl
  exact ⟨by omega, high⟩

theorem fits_signed (x : Int64) : (Toml.Plain.whole x.toInt).Fits :=
  ⟨x.minValue_le_toInt, x.toInt_le⟩

theorem isPlain_server {c : Settings} (fits : c.Fits) :
    Toml.Section.IsPlain ⟨"server", c.server.entries⟩ := by
  refine isPlain_of_keys ["host", "port", "max_body_size_kb"] rfl (by decide) (by decide) ?_
  have port : (c.server.port.toNat : Int) ≤ Int64.maxValue.toInt := by
    have small := c.server.port.toNat_lt
    have largest : Int64.maxValue.toInt = 9223372036854775807 := rfl
    omega
  simp only [Server.entries, List.forall_mem_cons]
  exact ⟨trivial, fits_natural port, fits_natural fits.limit, List.forall_mem_nil _⟩

theorem isPlain_pool {c : Settings} (fits : c.Fits) :
    Toml.Section.IsPlain ⟨"pool", c.pool.entries⟩ := by
  refine isPlain_of_keys ["workers"] rfl (by decide) (by decide) ?_
  simp only [Pool.entries, List.forall_mem_cons]
  exact ⟨fits_natural fits.workers, List.forall_mem_nil _⟩

theorem isPlain_costs (c : Costs) : Toml.Section.IsPlain ⟨"costs", c.entries⟩ := by
  refine isPlain_of_keys ["plus_ms", "minus_ms", "multiply_ms", "divide_ms"] rfl (by decide)
    (by decide) ?_
  simp only [Costs.entries, List.forall_mem_cons]
  exact ⟨fits_signed _, fits_signed _, fits_signed _, fits_signed _, List.forall_mem_nil _⟩

theorem isPlain_store (c : Storage) : Toml.Section.IsPlain ⟨"store", c.entries⟩ := by
  unfold Storage.entries
  cases c.snapshotPath with
  | none => exact isPlain_of_keys [] rfl (by decide) (by decide) (List.forall_mem_nil _)
  | some path =>
    refine isPlain_of_keys ["snapshot_path"] rfl (by decide) (by decide) fun e member => ?_
    rw [List.mem_singleton.1 member]
    trivial

theorem arePlain_sections {c : Settings} (fits : c.Fits) : Toml.ArePlain c.sections where
  sections := by
    simp only [sections, List.forall_mem_cons]
    exact ⟨isPlain_server fits, isPlain_pool fits, isPlain_costs _, isPlain_store _,
      List.forall_mem_nil _⟩
  distinct := show ["server", "pool", "costs", "store"].Nodup by decide

theorem Selection.arePlain (S : Selection) {ss : List Toml.Section} (plain : Toml.ArePlain ss) :
    Toml.ArePlain (S.sections ss) where
  sections := by
    intro s member
    obtain ⟨t, inside, rfl⟩ := List.mem_map.1 member
    have whole := plain.sections t (List.mem_of_mem_filter inside)
    exact {
      name := whole.name
      keys := fun e member => whole.keys e (List.mem_of_mem_filter member)
      distinct := whole.distinct.sublist (List.filter_sublist.map _)
      fits := fun e member => whole.fits e (List.mem_of_mem_filter member) }
  distinct := by
    have names : (S.sections ss).map Toml.Section.name =
        (ss.filter fun s => S.hasSection s.name).map Toml.Section.name := by
      rw [sections, List.map_map]
      rfl
    rw [names]
    exact plain.distinct.sublist (List.filter_sublist.map _)

theorem ofDocument_selected (S : Selection) {c : Settings} (fits : c.Fits) :
    ∃ text, Toml.write? (S.sections c.sections) = some text ∧
      ofDocument text = some (S.overlay c) := by
  have plain := S.arePlain (arePlain_sections fits)
  refine ⟨_, Toml.write?_eq plain, ?_⟩
  rw [ofDocument, Toml.read_written plain (Toml.write?_eq plain), Option.bind_some]
  exact ofToml_selected S c

theorem Selection.sections_everything (ss : List Toml.Section) : everything.sections ss = ss := by
  have same : everything.ofSection = id := by
    funext s
    simp [everything, ofSection]
  rw [sections, same, List.map_id]
  exact List.filter_eq_self.2 fun _ _ => rfl

theorem Selection.overlay_everything (c : Settings) : everything.overlay c = c :=
  rfl

theorem ofToml_sections (c : Settings) : ofToml (Toml.ofSections c.sections) = some c := by
  have whole := ofToml_selected .everything c
  rwa [Selection.sections_everything, Selection.overlay_everything] at whole

/-- The written settings, also behind a comment of one line, are read as they are. -/
theorem ofDocument_titled {c : Settings} (fits : c.Fits) {title text : String}
    (written : c.document? = some text) (oneLine : ∀ ch ∈ title.toList, Toml.isTextChar ch = true) :
    ofDocument ("#" ++ title ++ "\n" ++ text) = some c := by
  rw [ofDocument, Toml.read_titled (arePlain_sections fits) written oneLine, Option.bind_some]
  exact ofToml_sections c

theorem ofDocument_document {c : Settings} (fits : c.Fits) {text : String}
    (written : c.document? = some text) : ofDocument text = some c := by
  rw [ofDocument, Toml.read_written (arePlain_sections fits) written, Option.bind_some]
  exact ofToml_sections c

theorem overriddenBy_again (s : Settings) (env : Environment) :
    (s.overriddenBy env).overriddenBy env = s.overriddenBy env := by
  have again {α : Type} (given : Option α) (x : α) : given.getD (given.getD x) = given.getD x := by
    cases given <;> rfl
  simp only [overriddenBy, again]

/-! ### Shown settings -/

theorem load_text (file text : String) :
    load file (.ok text.toUTF8) = match ofDocument text with
      | none => .error (.malformed file)
      | some s => .ok s := by
  have decoded : String.fromUTF8? text.toUTF8 = some text := dif_pos text.isValidUTF8
  cases parsed : ofDocument text <;> simp only [load, decoded, parsed]

/-- What is shown of valid settings: their document under a title that names their file. -/
def shown (path document : String) : String :=
  "# effective configuration (" ++ path ++ ")\n" ++ document

theorem checkConfig_valid {c : Settings} (valid : c.validate = .ok ()) {document : String}
    (written : c.document? = some document) (path : String) :
    CommandLine.checkConfig c path = .done (shown path document) := by
  simp only [CommandLine.checkConfig, valid, written]
  rfl

theorem shown_eq (path document : String) : shown path document =
    "#" ++ (" effective configuration (" ++ path ++ ")") ++ "\n" ++ document := by
  have front : "# effective configuration (" = "#" ++ " effective configuration (" := rfl
  have back : ")\n" = ")" ++ "\n" := rfl
  unfold shown
  rw [front, back]
  simp only [String.append_assoc]

/-- The title is a comment if the path can stand in one. -/
theorem ofDocument_shown {c : Settings} (fits : c.Fits) {path document : String}
    (written : c.document? = some document)
    (oneLine : ∀ ch ∈ path.toList, Toml.isTextChar ch = true) :
    ofDocument (shown path document) = some c := by
  rw [shown_eq]
  refine ofDocument_titled fits written fun ch member => ?_
  simp only [String.toList_append, List.mem_append] at member
  have plain : ∀ ch ∈ " effective configuration (".toList ++ ")".toList,
      Toml.isTextChar ch = true := List.all_eq_true.1 (by decide)
  rcases member with (front | inside) | back
  · exact plain ch (List.mem_append_left _ front)
  · exact oneLine ch inside
  · exact plain ch (List.mem_append_right _ back)

/-- A document with any of the written entries is read as the settings with the defaults for the
others. So is the document that is shown for settings under an environment, with or without its
title, and the environment changes nothing of it. -/
theorem documents_overlay (c : Settings) (fits : c.Fits) :
    (∀ S : Selection, ∃ text, Toml.write? (S.sections c.sections) = some text ∧
      ofDocument text = some (S.overlay c)) ∧
    (∃ text, c.document? = some text ∧ ofDocument text = some c) ∧
    ∀ (s : Settings) (env : Environment) (path : String), s.overriddenBy env = c →
      c.validate = .ok () → ∃ document,
        CommandLine.checkConfig c path = .done (shown path document) ∧
        (∀ file, (load file (.ok document.toUTF8)).map (·.overriddenBy env) = .ok c) ∧
        ((∀ ch ∈ path.toList, Toml.isTextChar ch = true) → ∀ file,
          (load file (.ok (shown path document).toUTF8)).map (·.overriddenBy env) = .ok c) := by
  have written : c.document? = some _ := Toml.write?_eq (arePlain_sections fits)
  refine ⟨fun S => ofDocument_selected S fits, ⟨_, written, ofDocument_document fits written⟩, ?_⟩
  rintro s env path rfl valid
  refine ⟨_, checkConfig_valid valid written path, fun file => ?_, fun oneLine file => ?_⟩
  · rw [load_text, ofDocument_document fits written]
    exact congrArg Except.ok (overriddenBy_again s env)
  · rw [load_text, ofDocument_shown fits written oneLine]
    exact congrArg Except.ok (overriddenBy_again s env)

/-- Some of the entries of settings with a path full of quotes, and the settings shown for an
environment. -/
theorem quotedStore_overlay : let c : Settings :=
      ⟨⟨"::1", 9000, 8⟩, ⟨3⟩, ⟨5, 0, 7, 9⟩, ⟨some "a'\"\\\n"⟩⟩
    let S : Selection := ⟨(· ≠ "pool"), fun _ key => decide (key ∈ ["port", "snapshot_path"])⟩
    (∃ text, Toml.write? (S.sections c.sections) = some text ∧ ofDocument text =
      some ⟨⟨"127.0.0.1", 9000, 64⟩, ⟨10⟩, ⟨1000, 1000, 1000, 1000⟩, ⟨some "a'\"\\\n"⟩⟩) ∧
    ∃ document, CommandLine.checkConfig c "abacus.toml" = .done (shown "abacus.toml" document) ∧
      (load "abacus.toml" (.ok (shown "abacus.toml" document).toUTF8)).map
        (·.overriddenBy ⟨none, some "::1", some "9000", some "x"⟩) = .ok c := by
  intro c S
  have fits : c.Fits := ⟨by decide, by decide⟩
  obtain ⟨overlay, -, again⟩ := documents_overlay c fits
  obtain ⟨document, shows, -, titled⟩ :=
    again ⟨⟨"", 1, 8⟩, ⟨3⟩, ⟨5, 0, 7, 9⟩, ⟨some "a'\"\\\n"⟩⟩
      ⟨none, some "::1", some "9000", some "x"⟩ "abacus.toml" (by decide +kernel)
      (by decide +kernel)
  exact ⟨overlay S, document, shows, titled (List.all_eq_true.1 (by decide)) "abacus.toml"⟩

def brokenTitle : String :=
  "# effective configuration (a\nb.toml)\n"

theorem shown_brokenTitle (document : String) :
    shown "a\nb.toml" document = brokenTitle ++ document := by
  have title : "# effective configuration (" ++ "a\nb.toml" ++ ")\n" = brokenTitle := rfl
  unfold shown
  rw [title]

/-- Behind the line feed stands something that is no entry. -/
theorem read_brokenTitle {rest : List Char} (printed : ∀ ch ∈ rest, Toml.IsPrinted ch) :
    Toml.read (brokenTitle ++ String.ofList rest) = none := by
  have title : ∀ ch ∈ brokenTitle.toList, Toml.isTextChar ch = true ∨ ch = '\n' := by
    have each : brokenTitle.toList.all fun ch => Toml.isTextChar ch || ch == '\n' := by
      decide +kernel
    simpa only [List.all_eq_true, Bool.or_eq_true, beq_iff_eq] using each
  have chars : (brokenTitle ++ String.ofList rest).toList = brokenTitle.toList ++ rest := by
    rw [String.toList_append, String.toList_ofList]
  have lines : Toml.plainLines (Toml.withoutMark (brokenTitle.toList ++ rest)) =
      brokenTitle.toList ++ rest :=
    Toml.plainLines_printed
      (fun ch member => (List.mem_append.1 member).elim (title ch) (printed ch))
      fun marked => absurd (Option.some.inj marked) (by decide)
  have stops (n : Nat) : Toml.readStatements (n + 1) (brokenTitle.toList ++ rest) = none := rfl
  simp only [Toml.read, chars, lines, stops, Option.bind_eq_bind, Option.bind_none]

/-- A path with a line feed in it ends the comment of the title too early. -/
theorem brokenTitle_unreadable : ∃ document,
    CommandLine.checkConfig default "a\nb.toml" = .done (shown "a\nb.toml" document) ∧
    load "a.toml" (.ok (shown "a\nb.toml" document).toUTF8) = .error (.malformed "a.toml") := by
  have fits : default.Fits := ⟨by decide, by decide⟩
  have plain := arePlain_sections fits
  refine ⟨_, checkConfig_valid (by decide +kernel) (Toml.write?_eq plain) "a\nb.toml", ?_⟩
  rw [load_text, shown_brokenTitle, ofDocument,
    read_brokenTitle fun ch => Toml.isPrinted_documentChars plain.sections]
  rfl

end Reckoner.Settings
