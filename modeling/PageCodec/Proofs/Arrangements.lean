import PageCodec.Proofs.Arguments

/-!
# Arrangements of arguments

What a run is asked to do can be written in many ways: its options can come in any order, each in
any of its spellings, with the files between them or behind a `--`.  All of them say the same.

* `CommandLine.readNumber_toString` — numbers are read back as they are written.
* `CommandLine.Spelled` — the spellings of an option that takes a value.
* `CommandLine.Arranged` — arguments that ask for files and settings with a number of requests to
  say more (`CommandLine.Arrangement` for a run).
* `CommandLine.AsksForSettings` — items that do; they make sense together
  (`CommandLine.AsksForSettings.makesSense`), and this is what they come to
  (`CommandLine.AsksForSettings.argsOf_eq`).
* `CommandLine.Parser.Rules.arranged` — arguments are split into such items, by any parser that goes
  by the rules.
* `CommandLine.arrangements_read` — the options of a run are read from all their arrangements.
-/

namespace PageCodec

namespace CommandLine

/-! ## Numbers -/

theorem readDigits_eq {cs : List Char} (h : ∀ c ∈ cs, c.isDigit = true) (n : Nat) :
    readDigits n cs = some (Nat.ofDigitChars 10 cs n) := by
  induction cs generalizing n with
  | nil => rfl
  | cons c cs ih =>
    obtain ⟨hc, hcs⟩ := List.forall_mem_cons.1 h
    rw [readDigits, if_pos hc, ih hcs]
    rfl

/-- The text of a number begins with a digit. -/
theorem exists_toList_toString (n : Nat) :
    ∃ c cs, (toString n).toList = c :: cs ∧ c.isDigit = true := by
  rw [Nat.toString_eq_repr, Nat.toList_repr]
  rcases h : Nat.toDigits 10 n with _ | ⟨c, cs⟩
  · exact absurd h Nat.toDigits_ne_nil
  · exact ⟨c, cs, rfl, Nat.isDigit_of_mem_toDigits (by decide) (by decide)
      (h ▸ List.mem_cons_self)⟩

/-- A number in range is read back from its text. -/
theorem readNumber_toString {n largest : Nat} (h : n ≤ largest) :
    readNumber largest (toString n) = some n := by
  obtain ⟨c, cs, htext, hc⟩ := exists_toList_toString n
  have hplus : c ≠ '+' := by
    rintro rfl
    cases hc
  have hdigits : c :: cs = Nat.toDigits 10 n := by
    rw [← htext, Nat.toString_eq_repr, Nat.toList_repr]
  unfold readNumber
  rw [htext]
  split
  · cases ‹_›
    exact absurd rfl hplus
  · have hall : ∀ d ∈ c :: cs, d.isDigit = true := fun d hd =>
      Nat.isDigit_of_mem_toDigits (by decide) (by decide) (hdigits ▸ hd)
    dsimp only
    rw [List.isEmpty_cons, if_neg Bool.false_ne_true, readDigits_eq hall, hdigits,
      Nat.ofDigitChars_toDigits (by decide) (by decide)]
    exact Option.filter_some_pos (decide_eq_true h)

/-! ## Ways to write options -/

/-- The arguments that write an option with a value, and the letters `v` that stand in front of it
in a cluster. -/
inductive Spelled (text : String) : ValueOption → Nat → List String → Prop where
  /-- The value makes an argument of its own behind the name. -/
  | long (option : ValueOption) : Spelled text option 0 ["--" ++ option.longName, text]
  /-- The value is joined to the name. -/
  | longJoined (option : ValueOption) :
    Spelled text option 0 ["--" ++ option.longName ++ "=" ++ text]
  /-- The value makes an argument of its own behind the letter. -/
  | short (j : Nat) : Spelled text .limit j [short (List.replicate j 'v' ++ ['n']), text]
  /-- The value follows the letter. -/
  | shortJoined (j : Nat) :
    Spelled text .limit j [short (List.replicate j 'v' ++ 'n' :: text.toList)]
  /-- The value follows the letter and an equals sign. -/
  | shortEquals (j : Nat) :
    Spelled text .limit j [short (List.replicate j 'v' ++ 'n' :: '=' :: text.toList)]

/-- A file that may be named before `--`. -/
def Plain (name : String) : Prop := name = "" ∨ name = "-" ∨ name.toList.head? ≠ some '-'

/-- The number that settings give an option. -/
def given (settings : Measure.Settings) : ValueOption → Option Nat
  | .limit => settings.limit
  | .algorithmId => settings.algorithmId.map UInt32.toNat

/-- Settings in which an option is given a number. -/
def give (settings : Measure.Settings) (n : Nat) : ValueOption → Measure.Settings
  | .limit => { settings with limit := some n }
  | .algorithmId => { settings with algorithmId := some (UInt32.ofNat n) }

/-- The arguments `args` ask for these files and settings, with `k` requests to say more. -/
inductive Arranged : Nat → List String → Measure.Settings → List String → Prop where
  /-- There are no arguments. -/
  | done : Arranged 0 [] ⟨false, none, none⟩ []
  /-- Files of any name come behind `--`. -/
  | names (names : List String) : Arranged 0 names ⟨false, none, none⟩ ("--" :: names)
  /-- A file comes first. -/
  | file {k : Nat} {files : List String} {settings : Measure.Settings} {args : List String}
    {name : String} : Plain name → Arranged k files settings args →
      Arranged k (name :: files) settings (name :: args)
  /-- Requests to say more come first, in a cluster. -/
  | requests {k : Nat} {files : List String} {settings : Measure.Settings} {args : List String}
    (j : Nat) : Arranged k files settings args →
      Arranged (j + 1 + k) files settings (short (List.replicate (j + 1) 'v') :: args)
  /-- The request for page lines comes first. -/
  | perPage {k : Nat} {files : List String} {settings : Measure.Settings} {args : List String} :
    settings.perPage = false → Arranged k files settings args →
      Arranged k files { settings with perPage := true } ("--per-page" :: args)
  /-- An option with a value comes first, perhaps in a cluster with requests. -/
  | valued {k j n : Nat} {files : List String} {settings : Measure.Settings}
    {own args : List String} {option : ValueOption} : n ≤ option.largest →
      Spelled (toString n) option j own → given settings option = none →
      Arranged k files settings args →
      Arranged (j + k) files (give settings n option) (own ++ args)

/-- The arguments `args` ask for a run with these options, with as many requests as a byte can
count. -/
def Arrangement (o : Options) (args : List String) : Prop :=
  ∃ k : UInt8, Level.ofVerbosity k = o.level ∧ Arranged k.toNat o.files o.settings args

/-! ## Reading an arrangement -/

theorem isOption_of_plain {name : String} (h : Plain name) : isOption name = false := by
  rcases h with rfl | rfl | h
  · rfl
  · rfl
  · unfold isOption
    split
    · rename_i heq
      rw [heq] at h
      exact absurd rfl h
    · rfl

theorem plain_toString (n : Nat) : Plain (toString n) := by
  obtain ⟨c, cs, htext, hc⟩ := exists_toList_toString n
  refine .inr (.inr ?_)
  rw [htext]
  rintro ⟨⟩
  cases hc

theorem ne_separator_of_not_option {arg : String} (h : isOption arg = false) : arg ≠ "--" := by
  rintro rfl
  cases h

section

variable {p : Parser} (hp : p.Rules)

include hp

/-- An option that takes no value of the next argument is read for itself. -/
theorem Parser.Rules.own {arg : String} {args : List String} {own items : List Item}
    (hsep : arg ≠ "--") (hoption : isOption arg = true) (hown : readOption arg = .ok (own, none))
    (hread : p.split none args = .ok (items, none)) :
    p.split none (arg :: args) = .ok (own ++ items, none) :=
  (hp.option hsep hoption).2 ⟨own, none, items, hown, hread, rfl⟩

/-- An option that waits is given the next argument. -/
theorem Parser.Rules.waiting {arg text : String} {args : List String} {own items : List Item}
    {option : ValueOption} (hsep : arg ≠ "--") (hoption : isOption arg = true)
    (hown : readOption arg = .ok (own, some option)) (htext : isOption text = false)
    (hread : p.split none args = .ok (items, none)) :
    p.split none (arg :: text :: args)
      = .ok (own ++ .valued option (some text) :: items, none) :=
  (hp.option hsep hoption).2 ⟨own, some option, _, hown,
    (hp.word (ne_separator_of_not_option htext) htext).2 ⟨items, hread, rfl⟩, rfl⟩

end

/-- The value of an option may be joined to its name. -/
theorem toList_joined (option : ValueOption) (text : String) :
    ("--" ++ option.longName ++ "=" ++ text).toList
      = '-' :: '-' :: (option.longName.toList ++ '=' :: text.toList) := by
  simp [String.toList_append]

theorem readOption_joined (option : ValueOption) (text : String) :
    readOption ("--" ++ option.longName ++ "=" ++ text)
      = .ok ([.valued option (some text)], none) := by
  have hvalue : attachedValue (option.longName.toList ++ '=' :: text.toList) = some text := by
    cases option <;> exact congrArg some String.ofList_toList
  have hname : String.ofList ((option.longName.toList ++ '=' :: text.toList).takeWhile (· ≠ '='))
      = option.longName := by
    cases option <;> rfl
  have hlong : readLong (option.longName.toList ++ '=' :: text.toList)
      = readValued option (some text) := by
    unfold readLong
    dsimp only
    rw [hvalue, hname]
    cases option <;> rfl
  rw [readOption, toList_joined]
  exact hlong

/-- A number may follow the letter of its option at once. -/
theorem readCluster_number (n : Nat) : readCluster ('n' :: (toString n).toList)
    = .ok ([.valued .limit (some (toString n))], none) := by
  obtain ⟨c, cs, htext, hc⟩ := exists_toList_toString n
  have hequals : dropEquals (c :: cs) = c :: cs := by
    unfold dropEquals
    split
    · cases ‹_›
      cases hc
    · rfl
  rw [htext, readCluster, hequals, ← htext, String.ofList_toList]
  rintro ⟨⟩

theorem readCluster_equals (text : String) : readCluster ('n' :: '=' :: text.toList)
    = .ok ([.valued .limit (some text)], none) := by
  rw [readCluster, dropEquals, String.ofList_toList]
  rintro ⟨⟩

/-- Every spelling of an option is read as its requests and the option with its number. -/
theorem Parser.Rules.spelled {p : Parser} (hp : p.Rules) {n j : Nat}
    {option : ValueOption} {own args : List String} {items : List Item}
    (h : Spelled (toString n) option j own) (hread : p.split none args = .ok (items, none)) :
    p.split none (own ++ args)
      = .ok (List.replicate j .verbose ++ .valued option (some (toString n)) :: items, none) := by
  have hword : isOption (toString n) = false := isOption_of_plain (plain_toString n)
  have hdash {cs : List Char} : ('n' :: cs).head? ≠ some '-' := by
    rintro ⟨⟩
  -- in a cluster the option is read together with its requests
  have hcluster : ∀ cs : List Char,
      readCluster ('n' :: cs) = .ok ([.valued .limit (some (toString n))], none) →
      p.split none (short (List.replicate j 'v' ++ 'n' :: cs) :: args)
        = .ok (List.replicate j .verbose ++ .valued .limit (some (toString n)) :: items, none) := by
    intro cs hcs
    have hown := hp.own (short_ne_separator (head_flagged hdash j)) (isOption_short (by simp))
      (readOption_flagged hdash hcs j) hread
    rwa [List.append_assoc] at hown
  cases h with
  | long option =>
    have hown : readOption ("--" ++ option.longName) = .ok ([], some option) := by
      cases option <;> rfl
    exact hp.waiting (by cases option <;> decide) (by cases option <;> decide) hown hword
      hread
  | longJoined option =>
    have hsep : "--" ++ option.longName ++ "=" ++ toString n ≠ "--" := by
      intro hsep
      have hlist := toList_joined option (toString n)
      rw [hsep] at hlist
      cases option <;> cases hlist
    have hoption : isOption ("--" ++ option.longName ++ "=" ++ toString n) = true := by
      rw [isOption, toList_joined]
      rfl
    have hown := hp.own hsep hoption (readOption_joined option (toString n)) hread
    exact hown
  | short j =>
    have hletter : readCluster ['n'] = .ok ([], some .limit) := rfl
    have hown := hp.waiting (short_ne_separator (head_flagged hdash j))
      (isOption_short (by simp)) (readOption_flagged hdash hletter j) hword hread
    rwa [List.append_nil] at hown
  | shortJoined j => exact hcluster _ (readCluster_number n)
  | shortEquals j => exact hcluster _ (readCluster_equals (toString n))

/-- How often an option that may come only once has to come. -/
def times (settings : Measure.Settings) : Single → Nat
  | .perPage => settings.perPage.toNat
  | .valued option => (given settings option).toList.length

theorem given_give_self (settings : Measure.Settings) {n : Nat} {option : ValueOption}
    (h : n ≤ option.largest) : given (give settings n option) option = some n := by
  cases option with
  | limit => rfl
  | algorithmId =>
    have hlt : n < UInt32.size := Nat.lt_of_le_pred (by decide) h
    exact congrArg some (UInt32.toNat_ofNat_of_lt' hlt)

theorem given_give_of_ne (settings : Measure.Settings) (n : Nat) {option o : ValueOption}
    (h : option ≠ o) : given (give settings n option) o = given settings o := by
  cases option <;> cases o <;> first | rfl | exact absurd rfl h

theorem times_le_one (settings : Measure.Settings) (s : Single) : times settings s ≤ 1 := by
  cases s with
  | perPage => exact Bool.toNat_le _
  | valued option => cases h : given settings option <;> simp [times, h]

/-- Items that ask for files and settings, with a number of requests to say more. -/
structure AsksForSettings (items : List Item) (k : Nat) (files : List String)
    (settings : Measure.Settings) : Prop where
  /-- There are as many requests. -/
  requests : items.count .verbose = k
  /-- The files are there in order. -/
  files : items.filterMap Item.file? = files
  /-- Page lines are asked for if they are wanted. -/
  perPage : items.contains .perPage = settings.perPage
  /-- The values that an option has are read as the number that it is given. -/
  values : ∀ option : ValueOption, (values items option).map option.read
    = (given settings option).toList.map some
  /-- Every option comes as often as it has to. -/
  once : ∀ s, (items.filterMap Item.single?).count s = times settings s

namespace AsksForSettings

variable {items : List Item} {k : Nat} {files : List String} {settings : Measure.Settings}

theorem nil : AsksForSettings [] 0 [] ⟨false, none, none⟩ := by
  refine ⟨rfl, rfl, rfl, fun option => ?_, fun s => ?_⟩
  · cases option <;> rfl
  · cases s with
    | perPage => rfl
    | valued option => cases option <;> rfl

theorem file (h : AsksForSettings items k files settings) (name : String) :
    AsksForSettings (.file name :: items) k (name :: files) settings := by
  refine ⟨?_, congrArg (name :: ·) h.files, h.perPage, h.values, h.once⟩
  rw [List.count_cons_of_ne (by simp), h.requests]

theorem names (names : List String) :
    AsksForSettings (names.map .file) 0 names ⟨false, none, none⟩ := by
  induction names with
  | nil => exact .nil
  | cons name names ih => exact ih.file name

theorem verbose (h : AsksForSettings items k files settings) :
    AsksForSettings (.verbose :: items) (k + 1) files settings := by
  refine ⟨?_, h.files, h.perPage, h.values, h.once⟩
  rw [List.count_cons_self, h.requests]

theorem verboses (h : AsksForSettings items k files settings) (j : Nat) :
    AsksForSettings (List.replicate j .verbose ++ items) (j + k) files settings := by
  induction j with
  | zero => rwa [Nat.zero_add]
  | succ j ih =>
    rw [Nat.succ_add]
    exact ih.verbose

theorem pageLines (h : AsksForSettings items k files settings) (hunset : settings.perPage = false) :
    AsksForSettings (.perPage :: items) k files { settings with perPage := true } := by
  refine ⟨?_, h.files, rfl, fun option => ?_, fun s => ?_⟩
  · rw [List.count_cons_of_ne (by simp), h.requests]
  · have hvalues := h.values option
    cases option <;> exact hvalues
  · show (Single.perPage :: items.filterMap Item.single?).count s = _
    rw [List.count_cons, h.once]
    cases s with
    | perPage => simp [times, hunset]
    | valued option => cases option <;> rfl

/-- An option that is not given a number yet is given one. -/
theorem number (h : AsksForSettings items k files settings) {option : ValueOption}
    {text : String} {n : Nat} (hn : n ≤ option.largest) (htext : option.read text = some n)
    (hunset : given settings option = none) :
    AsksForSettings (.valued option (some text) :: items) k files (give settings n option) := by
  have hvalues : ∀ o, CommandLine.values (.valued option (some text) :: items) o
      = if option = o then text :: CommandLine.values items o else CommandLine.values items o := by
    intro o
    by_cases ho : option = o <;> simp [CommandLine.values, Item.valueOf?, ho]
  refine ⟨?_, h.files, ?_, fun o => ?_, fun s => ?_⟩
  · rw [List.count_cons_of_ne (by simp), h.requests]
  · cases option <;> exact h.perPage
  · rw [hvalues]
    by_cases ho : option = o
    · subst ho
      rw [if_pos rfl, List.map_cons, h.values, htext, hunset, given_give_self settings hn]
      rfl
    · rw [if_neg ho, h.values, given_give_of_ne settings n ho]
  · show (Single.valued option :: items.filterMap Item.single?).count s = _
    rw [List.count_cons, h.once]
    cases s with
    | perPage => cases option <;> rfl
    | valued o =>
      by_cases ho : option = o
      · subst ho
        simp [times, hunset, given_give_self settings hn]
      · simp [times, ho, given_give_of_ne settings n ho]

end AsksForSettings

/-- Arguments ask for what they are arranged for.  The induction is on the arrangement, where each
step puts one argument, or an option and its value, in front of arguments that are read by
themselves, so that no option waits between them. -/
theorem Parser.Rules.arranged {p : Parser} (hp : p.Rules) {k : Nat} {files args : List String}
    {settings : Measure.Settings} (h : Arranged k files settings args) :
    ∃ items, p.split none args = .ok (items, none) ∧ AsksForSettings items k files settings := by
  induction h with
  | done => exact ⟨[], hp.done none, .nil⟩
  | names names =>
    refine ⟨names.map .file, ?_, .names names⟩
    rw [hp.separator]
    cases names <;> rfl
  | @file k files settings args name hname _ ih =>
    obtain ⟨items, hread, hasks⟩ := ih
    have hoption := isOption_of_plain hname
    exact ⟨_, (hp.word (ne_separator_of_not_option hoption) hoption).2
      ⟨items, hread, rfl⟩, hasks.file name⟩
  | @requests k files settings args j _ ih =>
    obtain ⟨items, hread, hasks⟩ := ih
    exact ⟨_, (hp.requests j).2 ⟨items, hread, rfl⟩, hasks.verboses (j + 1)⟩
  | @perPage k files settings args hunset _ ih =>
    obtain ⟨items, hread, hasks⟩ := ih
    have hown : readOption "--per-page" = .ok ([.perPage], none) := rfl
    exact ⟨_, hp.own (by decide) (by decide) hown hread, hasks.pageLines hunset⟩
  | @valued k j n files settings own args option hn hown hunset _ ih =>
    obtain ⟨items, hread, hasks⟩ := ih
    exact ⟨_, hp.spelled hown hread,
      (hasks.number hn (readNumber_toString hn) hunset).verboses j⟩

/-! ## What an arrangement says -/

namespace AsksForSettings

variable {items : List Item} {k : Nat} {files : List String} {settings : Measure.Settings}

/-- An option that has values has one value, which is read as the number that it is given. -/
theorem values_of_given (h : AsksForSettings items k files settings) {option : ValueOption}
    {n : Nat} (hn : given settings option = some n) :
    ∃ text, CommandLine.values items option = [text] ∧ option.read text = some n := by
  have hvalues := h.values option
  rw [hn] at hvalues
  exact List.map_eq_singleton_iff.1 hvalues

theorem number?_eq (h : AsksForSettings items k files settings) (option : ValueOption) :
    number? items option = given settings option := by
  unfold number?
  cases hn : given settings option with
  | none =>
    have hvalues := h.values option
    rw [hn] at hvalues
    rw [List.map_eq_nil_iff.1 hvalues]
    rfl
  | some n =>
    obtain ⟨text, hvalues, htext⟩ := h.values_of_given hn
    rw [hvalues]
    exact htext

/-- Items that ask for files make sense, and no option waits behind them. -/
theorem makesSense (h : AsksForSettings items k files settings) (hfiles : files ≠ []) :
    MakesSense items none := by
  constructor
  · exact fun _ hoption => by cases hoption
  · exact h.files ▸ hfiles
  · intro option hoption
    have hpos : 0 < times settings (.valued option) := by
      rwa [← h.once, List.count_pos_iff]
    obtain ⟨n, hn⟩ : ∃ n, given settings option = some n := by
      cases hn : given settings option with
      | none => simp [times, hn] at hpos
      | some n => exact ⟨n, rfl⟩
    obtain ⟨text, hvalues, -⟩ := h.values_of_given hn
    rw [hvalues]
    exact List.cons_ne_nil _ _
  · intro option text htext
    have hread : option.read text ∈ (CommandLine.values items option).map option.read :=
      List.mem_map_of_mem htext
    rw [h.values option] at hread
    obtain ⟨n, -, hn⟩ := List.mem_map.1 hread
    rw [← hn]
    rfl
  · intro s
    rw [h.once]
    exact times_le_one settings s

/-- What items ask for is what they come to. -/
theorem argsOf_eq {k : UInt8} (h : AsksForSettings items k.toNat files settings) : argsOf items
    = ⟨files, k, settings.perPage, settings.algorithmId, settings.limit⟩ := by
  have hid : settings.algorithmId = (given settings .algorithmId).map UInt32.ofNat := by
    cases hid : settings.algorithmId <;> simp [given, hid]
  unfold argsOf
  rw [h.files, h.requests, h.perPage, h.number?_eq, h.number?_eq, UInt8.ofNat_toNat, ← hid]
  rfl

end AsksForSettings

/-! ## All arrangements of a run -/

/-- A run can be asked for if its numbers are in range. -/
theorem exists_arrangement {o : Options}
    (hlimit : ∀ n, o.settings.limit = some n → n < UInt64.size) : ∃ args, Arrangement o args := by
  obtain ⟨files, level, perPage, algorithmId, limit⟩ := o
  have hlimited : ∃ args, Arranged 0 files ⟨false, none, limit⟩ args := by
    cases limit with
    | none => exact ⟨_, .names files⟩
    | some n =>
      have hn : n ≤ ValueOption.limit.largest := Nat.le_pred_of_lt (hlimit n rfl)
      exact ⟨_, .valued hn (.long .limit) rfl (.names files)⟩
  have hstamped : ∃ args, Arranged 0 files ⟨false, algorithmId, limit⟩ args := by
    obtain ⟨args, hargs⟩ := hlimited
    cases algorithmId with
    | none => exact ⟨args, hargs⟩
    | some id =>
      have hid : id.toNat ≤ ValueOption.algorithmId.largest := Nat.le_pred_of_lt id.toNat_lt
      have hgive := Arranged.valued hid (.long .algorithmId) rfl hargs
      rw [give, UInt32.ofNat_toNat] at hgive
      exact ⟨_, hgive⟩
  have hasked : ∃ args, Arranged 0 files ⟨perPage, algorithmId, limit⟩ args := by
    obtain ⟨args, hargs⟩ := hstamped
    cases perPage with
    | false => exact ⟨args, hargs⟩
    | true => exact ⟨_, .perPage rfl hargs⟩
  obtain ⟨args, hargs⟩ := hasked
  cases level with
  | warn => exact ⟨args, 0, rfl, hargs⟩
  | info => exact ⟨_, 1, rfl, .requests 0 hargs⟩
  | debug => exact ⟨_, 2, rfl, .requests 1 hargs⟩
  | trace => exact ⟨_, 3, rfl, .requests 2 hargs⟩

/-- An arrangement is read by every parser that goes by the rules. -/
theorem Parser.Rules.options_arrangement {p : Parser} (hp : p.Rules) {o : Options}
    {args : List String} (hfiles : o.files ≠ []) (h : Arrangement o args) :
    p.options args = .ok o := by
  obtain ⟨k, hlevel, harranged⟩ := h
  obtain ⟨items, hitems, hasks⟩ := hp.arranged harranged
  have hcheck := (hp.check items none).2 (hasks.makesSense hfiles)
  refine options_eq_ok_iff.2 ⟨items, none, hitems, hcheck, ?_⟩
  rw [hasks.argsOf_eq, Options.ofArgs, hlevel]

/-- **Order and spelling.**  What a run is asked to do does not depend on how it is asked: its
options are read from every arrangement of arguments, and they have one if their numbers are in
range. -/
theorem arrangements_read {o : Options} (hfiles : o.files ≠ []) :
    ((∀ n, o.settings.limit = some n → n < UInt64.size) → ∃ args, Arrangement o args)
      ∧ (∀ args, Arrangement o args → Options.ofArguments args = .ok o)
      ∧ ∀ args args', Arrangement o args → Arrangement o args' →
        Options.ofArguments args = Options.ofArguments args' := by
  have hread : ∀ args, Arrangement o args → Options.ofArguments args = .ok o := by
    intro args h
    rw [← Parser.options_standard]
    exact Parser.rules_standard.options_arrangement hfiles h
  refine ⟨exists_arrangement, hread, fun args args' h h' => ?_⟩
  rw [hread args h, hread args' h']

/-- A run that is asked for with options among its files, one of them behind `--`. -/
theorem arrangements_read_mixed :
    Options.ofArguments ["-vn", "3", "a", "--algorithm-id=7", "-", "--per-page", "-v", "--", "-x"]
      = .ok ⟨["a", "-", "-x"], .debug, ⟨true, some 7, some 3⟩⟩ := by
  have hplain : Plain "a" := .inr (.inr (by decide))
  have hnames := Arranged.names ["-x"]
  have hverbose := Arranged.requests 0 hnames
  have hperPage := Arranged.perPage rfl hverbose
  have hdash := Arranged.file (.inr (.inl rfl)) hperPage
  have hid : 7 ≤ ValueOption.algorithmId.largest := by decide
  have hstamp := Arranged.valued hid (.longJoined .algorithmId) rfl hdash
  have hfile := Arranged.file hplain hstamp
  have hlimit : 3 ≤ ValueOption.limit.largest := by decide
  have hall := Arranged.valued hlimit (.short 1) rfl hfile
  exact (arrangements_read (List.cons_ne_nil _ _)).2.1 _ ⟨2, rfl, hall⟩

end CommandLine

end PageCodec
