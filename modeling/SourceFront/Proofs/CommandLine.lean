import SourceFront.Command.Arguments

/-!
How command lines about a file are spelled, what a reader of arguments has to make of them, and
that there is one that does.
-/

namespace SourceFront.Command

/-- The word that asks for the format. -/
def Format.word : Format → String
  | human => "human"
  | json => "json"

/-- The word that names the command. -/
def Verb.word : Verb → String
  | check => "check"
  | parse => "parse"
  | tokens => "tokens"
  | version => "version"

/-- An option as it is spelled. Its value may be joined to it. -/
inductive Setting where
  | format (chosen : Format) (joined : Bool)
  | cap (count : Nat) (joined : Bool)
  | noSpans
  deriving DecidableEq, Repr

/-- What an option is about. -/
inductive Setting.Kind where
  | format | cap | noSpans
  deriving DecidableEq, Repr

namespace Setting

/-- What the option sets. -/
def kind : Setting → Kind
  | format .. => .format
  | cap .. => .cap
  | noSpans => .noSpans

/-- The words that an option is written with: two, or one with an equals sign. -/
def words : Setting → List String
  | format chosen true => ["--format=" ++ chosen.word]
  | format chosen false => ["--format", chosen.word]
  | cap count true => ["--max-errors=" ++ toString count]
  | cap count false => ["--max-errors", toString count]
  | noSpans => ["--no-spans"]

/-- The number of a cap has 64 bits at most. -/
def Small : Setting → Prop
  | cap count _ => count < UInt64.size
  | _ => True

end Setting

/-- A command line about a file. -/
structure Line where
  /-- The command; without one the file is checked. -/
  verb : Option Verb
  file : String
  /-- The options before the command. -/
  outer : List Setting
  /-- The options before the file, behind the command if there is one. -/
  inner : List Setting
  /-- The options behind the file. -/
  last : List Setting

namespace Line

/-- The words of the line from left to right. -/
def args (line : Line) : List String :=
  line.outer.flatMap Setting.words ++ line.verb.toList.map Verb.word ++
    line.inner.flatMap Setting.words ++ line.file :: line.last.flatMap Setting.words

/-- What the line asks for. -/
def request (line : Line) : Request :=
  match line.verb with
  | some .parse => .parse line.file (Setting.noSpans ∈ line.inner ++ line.last)
  | some .tokens => .tokens line.file
  | some .version => .version
  | some .check | none => .check line.file

/-- Every option stands once at most on its side of the command, and spans are left out of a tree
only. The file is neither an option nor, on its own, a command. -/
structure WellFormed (line : Line) : Prop where
  verb : line.verb ≠ some .version
  named : line.file ≠ ""
  plain : line.file.toList.head? ≠ some '-'
  alone : line.verb = none → line.outer = [] ∧ Verb.ofWord? line.file = none ∧ line.file ≠ "help"
  small : ∀ setting ∈ line.outer ++ (line.inner ++ line.last), setting.Small
  outerOnce : (line.outer.map Setting.kind).Nodup
  innerOnce : ((line.inner ++ line.last).map Setting.kind).Nodup
  outerSpans : Setting.noSpans ∉ line.outer
  innerSpans : Setting.noSpans ∈ line.inner ++ line.last → line.verb = some .parse

end Line

/-- A command line is accepted and asks for this. -/
def Asks (readArgs : List String → Except Output Invocation) (args : List String)
    (request : Request) : Prop :=
  ∃ invocation, readArgs args = .ok invocation ∧ invocation.request? = some request

/-- What is relied on of a reader of arguments: it reads command lines as they are meant. -/
structure Understands (readArgs : List String → Except Output Invocation) : Prop where
  asks : ∀ line : Line, line.WellFormed → Asks readArgs line.args line.request

section Words

variable {text : String} {count : Nat}

namespace Argument

theorem ofString_word (h : text.toList.head? ≠ some '-') : ofString text = .word text := by
  unfold ofString
  split <;> simp_all

theorem ofString_format (value : String) :
    ofString ("--format=" ++ value) = .long "format" (some value) := by
  simp [ofString, String.toList_append]

theorem ofString_cap (value : String) :
    ofString ("--max-errors=" ++ value) = .long "max-errors" (some value) := by
  simp [ofString, String.toList_append]

end Argument

theorem Format.ofWord?_word (format : Format) : ofWord? format.word = some format := by
  cases format <;> rfl

theorem Verb.ofWord?_word (verb : Verb) : ofWord? verb.word = some verb := by
  cases verb <;> rfl

theorem all_isDigit_toString (count : Nat) : ∀ c ∈ (toString count).toList, c.isDigit := by
  rw [Nat.toString_eq_repr, Nat.toList_repr]
  exact fun c => Nat.isDigit_of_mem_toDigits (by omega) (by omega)

theorem head_toString_ne {c : Char} (h : c.isDigit = false) :
    (toString count).toList.head? ≠ some c := by
  intro hhead
  have hdigit := all_isDigit_toString count c (List.mem_of_head? hhead)
  rw [h] at hdigit
  cases hdigit

theorem natural?_toString (h : count < UInt64.size) : natural? (toString count) = some count := by
  have hplus := @head_toString_ne count '+' (by decide)
  have hdigits := all_isDigit_toString count
  have hvalue : (toString count).toList.foldl (fun n c => 10 * n + (c.toNat - '0'.toNat)) 0 =
      count := by
    rw [Nat.toString_eq_repr, Nat.toList_repr, ← Nat.ofDigitChars_eq_foldl,
      Nat.ofDigitChars_ten_toDigits]
  have hnonempty : (toString count).toList ≠ [] := by
    rw [Nat.toString_eq_repr, Nat.toList_repr]
    exact Nat.toDigits_ne_nil
  unfold natural?
  split
  next digits hsplit =>
    rw [hsplit] at hplus
    exact absurd rfl hplus
  next =>
    dsimp only
    rw [hvalue, if_pos h, if_neg]
    simpa [hnonempty] using hdigits

end Words

namespace Draft

variable {draft : Draft} {setting other : Setting} {args : List String}

theorem bind_orMisuse {α β : Type} (a : α) (f : α → Except Notice β) :
    (orMisuse (some a) >>= f) = f a :=
  rfl

/-- An option may be set: it is known in its place and is not set yet. -/
def Takes (draft : Draft) : Setting → Prop
  | .format .. => draft.options.format = none
  | .cap .. => draft.options.cap = none
  | .noSpans => draft.verb = some .parse ∧ draft.noSpans = false

/-- A draft in which the option has been read. -/
def set (draft : Draft) : Setting → Draft
  | .format chosen _ => draft.withOptions { draft.options with format := some chosen }
  | .cap count _ => draft.withOptions { draft.options with cap := some count }
  | .noSpans => { draft with noSpans := true }

theorem addOption?_format {chosen : Format} (h : draft.options.format = none) :
    draft.addOption? "format" chosen.word =
      some (draft.withOptions { draft.options with format := some chosen }) := by
  simp [addOption?, h, Format.ofWord?_word]

theorem addOption?_cap {count : Nat} (h : draft.options.cap = none) (hsmall : count < UInt64.size) :
    draft.addOption? "max-errors" (toString count) =
      some (draft.withOptions { draft.options with cap := some count }) := by
  simp [-Nat.toString_eq_repr, addOption?, h, natural?_toString hsmall]

theorem read_words (htakes : draft.Takes setting) (hsmall : setting.Small) :
    draft.read (setting.words ++ args) = (draft.set setting).read args := by
  match setting, htakes, hsmall with
  | .format chosen true, htakes, _ =>
      rw [Setting.words, List.singleton_append, read, Argument.ofString_format]
      simp [addOption?_format htakes, set, bind_orMisuse]
  | .format chosen false, htakes, _ =>
      have hword : Argument.ofString chosen.word = .word chosen.word := by cases chosen <;> decide
      have hname : Argument.ofString "--format" = .long "format" none := by decide
      rw [Setting.words, List.cons_append, List.singleton_append, read, hname]
      simp [hword, addOption?_format htakes, set, bind_orMisuse]
  | .cap count true, htakes, hsmall =>
      rw [Setting.words, List.singleton_append, read, Argument.ofString_cap]
      simp [-Nat.toString_eq_repr, addOption?_cap htakes hsmall, set, bind_orMisuse]
  | .cap count false, htakes, hsmall =>
      have hword := Argument.ofString_word (@head_toString_ne count '-' (by decide))
      have hname : Argument.ofString "--max-errors" = .long "max-errors" none := by decide
      rw [Setting.words, List.cons_append, List.singleton_append, read, hname]
      simp [-Nat.toString_eq_repr, hword, addOption?_cap htakes hsmall, set, bind_orMisuse]
  | .noSpans, htakes, _ =>
      have hname : Argument.ofString "--no-spans" = .long "no-spans" none := by decide
      rw [Setting.words, List.singleton_append, read, hname]
      simp [addNoSpans?, htakes.1, htakes.2, set, bind_orMisuse]

theorem Takes.set (h : draft.Takes other) (hkind : setting.kind ≠ other.kind) :
    (draft.set setting).Takes other := by
  cases setting <;> cases other <;>
    first
    | exact absurd rfl hkind
    | cases hverb : draft.verb <;> simp_all [Takes, Draft.set, withOptions, options]

/-- Sets options one after another. -/
def setAll (draft : Draft) (settings : List Setting) : Draft :=
  settings.foldl set draft

variable {settings : List Setting}

theorem Takes.setAll (h : draft.Takes other) (hkind : other.kind ∉ settings.map Setting.kind) :
    (draft.setAll settings).Takes other := by
  induction settings generalizing draft with
  | nil => exact h
  | cons setting settings ih =>
      rw [List.map_cons, List.mem_cons, not_or] at hkind
      exact ih (h.set (Ne.symm hkind.1)) hkind.2

theorem read_flatMap_words (htakes : ∀ setting ∈ settings, draft.Takes setting)
    (hsmall : ∀ setting ∈ settings, setting.Small) (honce : (settings.map Setting.kind).Nodup) :
    draft.read (settings.flatMap Setting.words ++ args) = (draft.setAll settings).read args := by
  induction settings generalizing draft with
  | nil => rfl
  | cons setting settings ih =>
      obtain ⟨hhead, htail⟩ := List.forall_mem_cons.mp htakes
      obtain ⟨hfirst, hrest⟩ := List.forall_mem_cons.mp hsmall
      rw [List.map_cons, List.nodup_cons] at honce
      rw [List.flatMap_cons, List.append_assoc, read_words hhead hfirst]
      refine ih (fun other hmem => (htail other hmem).set fun hsame => ?_) hrest honce.2
      exact honce.1 (hsame ▸ List.mem_map_of_mem hmem)

theorem withOptions_frame (draft : Draft) (options : Options) :
    (draft.withOptions options).verb = draft.verb ∧
      (draft.withOptions options).file = draft.file ∧
      (draft.withOptions options).noSpans = draft.noSpans ∧
      (draft.verb = none → (draft.withOptions options).inner = draft.inner) := by
  cases hverb : draft.verb <;> simp [withOptions, hverb]

theorem set_frame (draft : Draft) (setting : Setting) :
    (draft.set setting).verb = draft.verb ∧ (draft.set setting).file = draft.file ∧
      (draft.set setting).noSpans = (draft.noSpans || setting = .noSpans) ∧
      (draft.verb = none → (draft.set setting).inner = draft.inner) := by
  cases setting with
  | noSpans => simp [set]
  | format chosen joined => simpa [set] using draft.withOptions_frame _
  | cap count joined => simpa [set] using draft.withOptions_frame _

theorem setAll_frame (draft : Draft) (settings : List Setting) :
    (draft.setAll settings).verb = draft.verb ∧ (draft.setAll settings).file = draft.file ∧
      (draft.setAll settings).noSpans = (draft.noSpans || Setting.noSpans ∈ settings) ∧
      (draft.verb = none → (draft.setAll settings).inner = draft.inner) := by
  induction settings generalizing draft with
  | nil => simp [setAll]
  | cons setting settings ih =>
      obtain ⟨hverb, hfile, hspans, hinner⟩ := draft.set_frame setting
      obtain ⟨hverbs, hfiles, hspan, hinners⟩ := ih (draft.set setting)
      refine ⟨hverbs.trans hverb, hfiles.trans hfile, hspan.trans ?_, fun hnone => ?_⟩
      · simp [hspans, eq_comm, Bool.or_assoc]
      · exact (hinners (hverb.trans hnone)).trans (hinner hnone)

theorem read_verb {verb : Verb} (h : draft.verb = none) :
    draft.read (verb.word :: args) =
      { draft with verb := some verb, file := none, outerFile := draft.file }.read args := by
  have hword : Argument.ofString verb.word = .word verb.word := by cases verb <;> decide
  have hhelp : verb.word ≠ "help" := by cases verb <;> decide
  rw [read, hword]
  simp [hhelp, addWord?, h, Verb.ofWord?_word, bind_orMisuse]

theorem read_file {file : String} (hplain : file.toList.head? ≠ some '-') (hnamed : file ≠ "")
    (hverb : draft.verb = none → Verb.ofWord? file = none ∧ file ≠ "help")
    (hversion : draft.verb ≠ some .version) (hfile : draft.file = none) :
    draft.read (file :: args) = { draft with file := some file }.read args := by
  have hadd : draft.addWord? file = some { draft with file := some file } := by
    cases h : draft.verb with
    | none => simp [addWord?, addFile?, h, (hverb h).1, hnamed, hfile]
    | some verb => simp [addWord?, addFile?, h, hnamed, hfile, h ▸ hversion]
  have hhelp : ¬ (file = "help" && draft.verb.isNone) = true := by
    cases h : draft.verb with
    | none => simp [(hverb h).2]
    | some verb => simp
  rw [read, Argument.ofString_word hplain]
  simp only [if_neg hhelp, hadd]
  rfl

theorem Takes.withFile (h : draft.Takes setting) (file : Option String) :
    { draft with file := file }.Takes setting := by
  cases setting <;> exact h

/-- Nothing is set in the place of the next option, and there is no file. -/
structure Fresh (draft : Draft) : Prop where
  options : draft.options = ⟨none, none⟩
  noSpans : draft.noSpans = false
  file : draft.file = none

theorem Fresh.takes (h : draft.Fresh) (hspans : setting = .noSpans → draft.verb = some .parse) :
    draft.Takes setting := by
  cases setting with
  | format | cap => exact congrArg _ h.options
  | noSpans => exact ⟨hspans rfl, h.noSpans⟩

end Draft

namespace Line

open Draft

variable {line : Line}

theorem exists_fresh (h : line.WellFormed) :
    ∃ draft : Draft, draft.Fresh ∧ draft.verb = line.verb ∧ ∀ args, Draft.empty.read
      (line.outer.flatMap Setting.words ++ line.verb.toList.map Verb.word ++ args) =
        draft.read args := by
  cases hverb : line.verb with
  | none =>
      rw [(h.alone hverb).1]
      exact ⟨.empty, ⟨rfl, rfl, rfl⟩, rfl, fun _ => rfl⟩
  | some verb =>
      obtain ⟨hnone, -, hspans, hinner⟩ := Draft.empty.setAll_frame line.outer
      refine ⟨{ Draft.empty.setAll line.outer with
          verb := some verb
          file := none
          outerFile := (Draft.empty.setAll line.outer).file },
        ⟨hinner rfl, ?_, rfl⟩, rfl, fun args => ?_⟩
      · rw [hspans, decide_eq_false h.outerSpans]
        rfl
      · rw [List.append_assoc, read_flatMap_words (fun setting hmem => ?_)
          (fun setting hmem => h.small setting (List.mem_append_left _ hmem)) h.outerOnce]
        · exact read_verb hnone
        · refine Fresh.takes ⟨rfl, rfl, rfl⟩ fun hsame => ?_
          exact absurd (hsame ▸ hmem) h.outerSpans

theorem request?_eq (h : line.WellFormed) {draft : Draft} (hverb : draft.verb = line.verb)
    (hfile : draft.file = some line.file)
    (hspans : draft.noSpans = decide (Setting.noSpans ∈ line.inner ++ line.last)) :
    ∃ invocation, draft.invocation? = some invocation ∧
      invocation.request? = some line.request := by
  have hversion := h.verb
  unfold invocation? command? request
  rw [hverb, hfile, hspans]
  cases hcommand : line.verb with
  | none => exact ⟨_, rfl, rfl⟩
  | some verb =>
      cases verb with
      | version => exact absurd hcommand hversion
      | check | parse | tokens => exact ⟨_, rfl, rfl⟩

/-- A command line that is spelled well is read as it is meant. -/
theorem asks_ofArgs (h : line.WellFormed) : Asks Invocation.ofArgs line.args line.request := by
  obtain ⟨draft, hfresh, hverb, hread⟩ := exists_fresh h
  have htakes : ∀ setting ∈ line.inner ++ line.last, draft.Takes setting := fun setting hmem =>
    hfresh.takes fun hsame => hverb.trans (h.innerSpans (hsame ▸ hmem))
  obtain ⟨htakesInner, htakesLast⟩ := List.forall_mem_append.mp htakes
  obtain ⟨hsmallInner, hsmallLast⟩ :=
    List.forall_mem_append.mp (List.forall_mem_append.mp h.small).2
  have honce := h.innerOnce
  rw [List.map_append, List.nodup_append] at honce
  obtain ⟨honceInner, honceLast, hapart⟩ := honce
  obtain ⟨hverbInner, hfileInner, hspansInner, -⟩ := draft.setAll_frame line.inner
  have hverbInner := hverbInner.trans hverb
  let named : Draft := { draft.setAll line.inner with file := some line.file }
  obtain ⟨hverbLast, hfileLast, hspansLast, -⟩ := named.setAll_frame line.last
  obtain ⟨invocation, hinvocation, hrequest⟩ :=
    request?_eq h (hverbLast.trans hverbInner) hfileLast (hspansLast.trans (by
      simp [named, hspansInner, hfresh.noSpans]))
  have hplain (hnone : line.verb = none) :
      Verb.ofWord? line.file = none ∧ line.file ≠ "help" := (h.alone hnone).2
  -- One part of the line is read after another; the file leaves open what may still be set.
  have hargs : Draft.empty.read line.args = orMisuse (named.setAll line.last).invocation? := by
    calc Draft.empty.read line.args
        = draft.read (line.inner.flatMap Setting.words ++
            line.file :: line.last.flatMap Setting.words) := by
          rw [args, List.append_assoc, hread]
      _ = (draft.setAll line.inner).read (line.file :: line.last.flatMap Setting.words) :=
          read_flatMap_words htakesInner hsmallInner honceInner
      _ = named.read (line.last.flatMap Setting.words ++ []) := by
          rw [List.append_nil]
          exact read_file h.plain h.named (fun hnone => hplain (hverbInner.symm.trans hnone))
            (hverbInner ▸ h.verb) (hfileInner.trans hfresh.file)
      _ = (named.setAll line.last).read [] := by
          refine read_flatMap_words (fun setting hmem => ?_) hsmallLast honceLast
          refine ((htakesLast setting hmem).setAll fun hkind => ?_).withFile _
          exact hapart _ hkind _ (List.mem_map_of_mem hmem) rfl
  refine ⟨invocation, ?_, hrequest⟩
  rw [Invocation.ofArgs, hargs, hinvocation]
  rfl

end Line

theorem understands_ofArgs : Understands Invocation.ofArgs :=
  ⟨fun _ => Line.asks_ofArgs⟩

end SourceFront.Command
