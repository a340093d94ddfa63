import DebianInstaller.Debconf.Strutl

/-!
# Templates

What `template.c` keeps of a template: its tag, its type, and for every language
the texts of the fields that are translated. The first such structure holds the
fields that stand in the file without a language; it is there from the start.

A lookup gives the text together with the structure it stands in, since
`rfc822db_template_dump` compares pointers.
-/

namespace DebianInstaller.Debconf

open Text

/-- The variables of the environment that cdebconf reads. -/
structure Env where
  language : Option Text := none
  noI18n : Bool := false
  dropTranslations : Bool := false
  debianFrontend : Option Text := none
  debianPriority : Option Text := none

/-- The parts of a text between its colons. -/
def splitColons : Text → List Text
  | [] => [[]]
  | c :: t =>
      if c = ':' then [] :: splitColons t
      else
        match splitColons t with
        | [] => [[c]]
        | w :: ws => (c :: w) :: ws

/-- `cache_list_lang_ptr` after `getlanguage`. -/
def Env.languages (env : Env) : List Text :=
  match env.language with
  | none => []
  | some l => splitColons l

/-! ## Fields -/

/-- The members of `struct template_l10n_fields`. -/
inductive Field where
  | default
  | choices
  | indices
  | description
  | extendedDescription
  deriving DecidableEq

def Field.name : Field → Text
  | .default => "default"
  | .choices => "choices"
  | .indices => "indices"
  | .description => "description"
  | .extendedDescription => "extended_description"

def Field.all : List Field :=
  [.default, .choices, .indices, .description, .extendedDescription]

def Field.ofName (name : Text) : Option Field :=
  Field.all.find? fun f => sameIgnoringCase name f.name

/-- `struct template_l10n_fields`. -/
structure L10nFields where
  language : Text
  text : Field → Option Text := fun _ => none

/-- `struct template`. -/
structure Template where
  tag : Text
  type : Option Text := none
  help : Option Text := none
  fields : L10nFields := { language := [] }
  translations : List L10nFields := []

/-- `template_new`. -/
def templateNew (tag : Text) : Template := { tag := tag }

/-- `template_field_get`. -/
def templateFieldGet (p : L10nFields) (field : Text) : Option Text :=
  (Field.ofName field).bind p.text

/-- `template_field_set`. -/
def templateFieldSet (p : L10nFields) (field value : Text) : L10nFields :=
  match Field.ofName field with
  | none => p
  | some f => { p with text := Function.update p.text f (some value) }

/-! ## Lookups -/

/-- A string of a template: which structure it stands in, and its text. -/
abbrev Found := Nat × Text

/-- `template_get_internal`, from the structure number `i` on. -/
def templateGetInternal (lang field : Text) (alt : Option Found) :
    Nat → List L10nFields → Option Found
  | _, [] => alt
  | i, p :: ps =>
      let found := (templateFieldGet p field).map fun v => (i, v)
      if p.language = lang then found
      else
        let alt := if p.language.length = 2 ∧ lang.take 2 = p.language then found else alt
        templateGetInternal lang field alt (i + 1) ps

/-- What `template_lget` finds for a name that is no name of a localized field. -/
def templateFind (env : Env) (t : Template) (lang : Option Text) (field : Text) :
    Option Found :=
  let default := (templateFieldGet t.fields field).map fun v => (0, v)
  let internal l := templateGetInternal l field none 1 t.translations
  match lang with
  | none => default
  | some [] => (env.languages.findSome? internal).or default
  | some l => (internal l).or default

/-- The strings that are not translated stand in no such structure. -/
def templateGet (env : Env) (t : Template) (lang : Option Text) (field : Text) :
    Option Found :=
  if sameIgnoringCase field "tag" then some (0, t.tag)
  else if sameIgnoringCase field "type" then t.type.map fun v => (0, v)
  else if sameIgnoringCase field "help" then t.help.map fun v => (0, v)
  else templateFind env t lang field

/-- `strcasestr`: where the first occurrence begins. -/
def strcasestr (needle : Text) : Text → Option Nat
  | [] => if needle.isEmpty then some 0 else none
  | c :: t =>
      if sameIgnoringCase ((c :: t).take needle.length) needle then some 0
      else (strcasestr needle t).map (· + 1)

def utf8Suffix : Text := ".UTF-8"

/-- The language before a `.UTF-8`, if this is the first one and the end of the name. -/
def beforeUtf8 (altlang : Text) : Option Text :=
  match strcasestr utf8Suffix altlang with
  | some i => if i + 6 = altlang.length ∧ i ≠ 1 then some (altlang.take i) else none
  | none => none

/-- `template_lget`, with the structure the string stands in. -/
def templateLgetFrom (env : Env) (t : Template) (lang : Option Text) (field : Text) :
    Option Found :=
  if '-' ∈ field then
    let origField := field.takeWhile (· != '-')
    let altlang := (field.dropWhile (· != '-')).tail
    if sameIgnoringCase altlang "C" then templateGet env t (some "C") origField
    else if env.noI18n then none
    else (beforeUtf8 altlang).bind fun l => templateGet env t (some l) origField
  else templateGet env t lang field

/-- `template_lget`. -/
def templateLget (env : Env) (t : Template) (lang : Option Text) (field : Text) : Option Text :=
  (templateLgetFrom env t lang field).map Prod.snd

/-! ## Setting fields -/

/-- The structures after a field is set for a language; a new one is made at the end. -/
def setLanguage (curlang field value : Text) : List L10nFields → List L10nFields
  | [] => [templateFieldSet { language := curlang } field value]
  | p :: ps =>
      if p.language = curlang then templateFieldSet p field value :: ps
      else p :: setLanguage curlang field value ps

/-- Whether a translation is one of those that are wanted. -/
def Env.wants (env : Env) (lang : Text) : Bool :=
  !env.dropTranslations || lang == "C" || lang.take 2 == "en" ||
    env.languages.any fun l =>
      let want := l.takeWhile fun c => c != '_' && c != '.' && c != '@'
      lang.take want.length == want

/-- `template_lset` for a name that is no name of a localized field. -/
def templateSet (env : Env) (t : Template) (lang : Option Text) (field value : Text) : Template :=
  if sameIgnoringCase field "tag" then { t with tag := value }
  else if sameIgnoringCase field "type" then { t with type := some value }
  else if sameIgnoringCase field "help" then { t with help := some value }
  else
    let setIn (curlang : Text) : Template :=
      if t.fields.language = curlang then { t with fields := templateFieldSet t.fields field value }
      else { t with translations := setLanguage curlang field value t.translations }
    match lang with
    | none => { t with fields := templateFieldSet t.fields field value }
    | some [] =>
        match env.languages with
        | [] => { t with fields := templateFieldSet t.fields field value }
        | l :: _ => setIn l
    | some l => if env.wants l then setIn l else t

/-- `template_lset`. -/
def templateLset (env : Env) (t : Template) (lang : Option Text) (field value : Text) : Template :=
  if '-' ∈ field then
    let origField := field.takeWhile (· != '-')
    let altlang := (field.dropWhile (· != '-')).tail
    if sameIgnoringCase altlang "C" then
      templateSet env t (some "C") origField value
    else if env.noI18n then t
    else
      match beforeUtf8 altlang with
      | some l => templateSet env t (some l) origField value
      | none => if '.' ∈ altlang then t else templateSet env t (some altlang) origField value
  else templateSet env t lang field value

/-- `template_cur_l10n_fields` and what follows it in `template_next_lang`. -/
def languageAfter (lang : Text) : List L10nFields → Option Text
  | [] => none
  | p :: ps => if p.language = lang then ps.head?.map L10nFields.language else languageAfter lang ps

/-- `template_next_lang`. -/
def templateNextLang (t : Template) : Option Text → Option Text
  | none => t.translations.head?.map L10nFields.language
  | some lang => languageAfter lang (t.fields :: t.translations)

end DebianInstaller.Debconf
