import SchemaModel.Text.Split

/-!
Names of character properties in a pattern. A name is compared without regard to case, blanks,
underscores, hyphens and a leading "is". It stands for a property that a character has or lacks,
for a general category, or for a script; a property with several values is written with one.
-/

namespace SchemaModel.Pattern

open Text (splitAt?)

/-- Properties that a character has or lacks, long and short names. -/
def yesNoProperties : List String := [
  "asciihexdigit", "ahex", "alphabetic", "alpha", "bidicontrol", "bidic", "bidimirrored", "bidim",
  "caseignorable", "ci", "cased", "changeswhencasefolded", "cwcf", "changeswhencasemapped",
  "cwcm", "changeswhenlowercased", "cwl", "changeswhentitlecased", "cwt", "changeswhenuppercased",
  "cwu", "dash", "defaultignorablecodepoint", "di", "deprecated", "dep", "diacritic", "dia",
  "emoji", "emojicomponent", "ecomp", "emojimodifier", "emod", "emojimodifierbase", "ebase",
  "emojipresentation", "epres", "extendedpictographic", "extpict", "extender", "ext",
  "graphemebase", "grbase", "graphemeextend", "grext", "graphemelink", "grlink", "hexdigit",
  "hex", "hyphen", "idsbinaryoperator", "idsb", "idstrinaryoperator", "idst", "idsunaryoperator",
  "idsu", "idcompatmathcontinue", "idcompatmathstart", "idcontinue", "idc", "idstart", "ids",
  "ideographic", "ideo", "joincontrol", "joinc", "logicalorderexception", "loe", "lowercase",
  "lower", "math", "modifiercombiningmark", "mcm", "noncharactercodepoint", "nchar",
  "otheralphabetic", "oalpha", "otherdefaultignorablecodepoint", "odi", "othergraphemeextend",
  "ogrext", "otheridcontinue", "oidc", "otheridstart", "oids", "otherlowercase", "olower",
  "othermath", "omath", "otheruppercase", "oupper", "patternsyntax", "patsyn",
  "patternwhitespace", "patws", "prependedconcatenationmark", "pcm", "quotationmark", "qmark",
  "radical", "regionalindicator", "ri", "sentenceterminal", "sterm", "softdotted", "sd",
  "terminalpunctuation", "term", "unifiedideograph", "uideo", "uppercase", "upper",
  "variationselector", "vs", "whitespace", "wspace", "space", "xidcontinue", "xidc", "xidstart",
  "xids"]

/-- General categories that hold characters; the surrogates hold none. -/
def generalCategories : List String := [
  "any", "assigned", "ascii", "c", "other", "cc", "control", "cntrl", "cf", "format", "cn",
  "unassigned", "co", "privateuse", "l", "letter", "lc", "casedletter", "ll", "lowercaseletter",
  "lm", "modifierletter", "lo", "otherletter", "lt", "titlecaseletter", "lu", "uppercaseletter",
  "m", "mark", "combiningmark", "mc", "spacingmark", "me", "enclosingmark", "mn",
  "nonspacingmark", "n", "number", "nd", "decimalnumber", "digit", "nl", "letternumber", "no",
  "othernumber", "p", "punctuation", "punct", "pc", "connectorpunctuation", "pd",
  "dashpunctuation", "pe", "closepunctuation", "pf", "finalpunctuation", "pi",
  "initialpunctuation", "po", "otherpunctuation", "ps", "openpunctuation", "s", "symbol", "sc",
  "currencysymbol", "sk", "modifiersymbol", "sm", "mathsymbol", "so", "othersymbol", "z",
  "separator", "zl", "lineseparator", "zp", "paragraphseparator", "zs", "spaceseparator"]

/-- Scripts, by name and by code. -/
def scripts : List String := [
  "adlam", "adlm", "ahom", "anatolianhieroglyphs", "hluw", "arabic", "arab", "armenian", "armn",
  "avestan", "avst", "balinese", "bali", "bamum", "bamu", "bassavah", "bass", "batak", "batk",
  "bengali", "beng", "bhaiksuki", "bhks", "bopomofo", "bopo", "brahmi", "brah", "braille", "brai",
  "buginese", "bugi", "buhid", "buhd", "canadianaboriginal", "cans", "carian", "cari",
  "caucasianalbanian", "aghb", "chakma", "cakm", "cham", "cherokee", "cher", "chorasmian", "chrs",
  "common", "zyyy", "coptic", "copt", "qaac", "cuneiform", "xsux", "cypriot", "cprt",
  "cyprominoan", "cpmn", "cyrillic", "cyrl", "deseret", "dsrt", "devanagari", "deva",
  "divesakuru", "diak", "dogra", "dogr", "duployan", "dupl", "egyptianhieroglyphs", "egyp",
  "elbasan", "elba", "elymaic", "elym", "ethiopic", "ethi", "garay", "gara", "georgian", "geor",
  "glagolitic", "glag", "gothic", "goth", "grantha", "gran", "greek", "grek", "gujarati", "gujr",
  "gunjalagondi", "gong", "gurmukhi", "guru", "gurungkhema", "gukh", "han", "hani", "hangul",
  "hang", "hanifirohingya", "rohg", "hanunoo", "hano", "hatran", "hatr", "hebrew", "hebr",
  "hiragana", "hira", "imperialaramaic", "armi", "inherited", "zinh", "qaai",
  "inscriptionalpahlavi", "phli", "inscriptionalparthian", "prti", "javanese", "java", "kaithi",
  "kthi", "kannada", "knda", "katakana", "kana", "kawi", "kayahli", "kali", "kharoshthi", "khar",
  "khitansmallscript", "kits", "khmer", "khmr", "khojki", "khoj", "khudawadi", "sind", "kiratrai",
  "krai", "lao", "laoo", "latin", "latn", "lepcha", "lepc", "limbu", "limb", "lineara", "lina",
  "linearb", "linb", "lisu", "lycian", "lyci", "lydian", "lydi", "mahajani", "mahj", "makasar",
  "maka", "malayalam", "mlym", "mandaic", "mand", "manichaean", "mani", "marchen", "marc",
  "masaramgondi", "gonm", "medefaidrin", "medf", "meeteimayek", "mtei", "mendekikakui", "mend",
  "meroiticcursive", "merc", "meroitichieroglyphs", "mero", "miao", "plrd", "modi", "mongolian",
  "mong", "mro", "mroo", "multani", "mult", "myanmar", "mymr", "nabataean", "nbat", "nagmundari",
  "nagm", "nandinagari", "nand", "newtailue", "talu", "newa", "nko", "nkoo", "nushu", "nshu",
  "nyiakengpuachuehmong", "hmnp", "ogham", "ogam", "olchiki", "olck", "olonal", "onao",
  "oldhungarian", "hung", "olditalic", "ital", "oldnortharabian", "narb", "oldpermic", "perm",
  "oldpersian", "xpeo", "oldsogdian", "sogo", "oldsoutharabian", "sarb", "oldturkic", "orkh",
  "olduyghur", "ougr", "oriya", "orya", "osage", "osge", "osmanya", "osma", "pahawhhmong", "hmng",
  "palmyrene", "palm", "paucinhau", "pauc", "phagspa", "phag", "phoenician", "phnx",
  "psalterpahlavi", "phlp", "rejang", "rjng", "runic", "runr", "samaritan", "samr", "saurashtra",
  "saur", "sharada", "shrd", "shavian", "shaw", "siddham", "sidd", "signwriting", "sgnw",
  "sinhala", "sinh", "sogdian", "sogd", "sorasompeng", "sora", "soyombo", "soyo", "sundanese",
  "sund", "sunuwar", "sunu", "sylotinagri", "sylo", "syriac", "syrc", "tagalog", "tglg",
  "tagbanwa", "tagb", "taile", "tale", "taitham", "lana", "taiviet", "tavt", "takri", "takr",
  "tamil", "taml", "tangsa", "tnsa", "tangut", "tang", "telugu", "telu", "thaana", "thaa", "thai",
  "tibetan", "tibt", "tifinagh", "tfng", "tirhuta", "tirh", "todhri", "todr", "toto",
  "tulutigalari", "tutg", "ugaritic", "ugar", "vai", "vaii", "vithkuqi", "vith", "wancho", "wcho",
  "warangciti", "wara", "yezidi", "yezi", "yi", "yiii", "zanabazarsquare", "zanb"]

/-- The versions that first assigned a character. -/
def ages : List String := [
  "1.1", "v11", "2.0", "v20", "2.1", "v21", "3.0", "v30", "3.1", "v31", "3.2", "v32", "4.0",
  "v40", "4.1", "v41", "5.0", "v50", "5.1", "v51", "5.2", "v52", "6.0", "v60", "6.1", "v61",
  "6.2", "v62", "6.3", "v63", "7.0", "v70", "8.0", "v80", "9.0", "v90", "10.0", "v100", "11.0",
  "v110", "12.0", "v120", "12.1", "v121", "13.0", "v130", "14.0", "v140", "15.0", "v150", "15.1",
  "v151", "16.0", "v160"]

/-- Roles at the breaks between grapheme clusters. -/
def clusterBreaks : List String := [
  "control", "cn", "cr", "extend", "ex", "l", "lf", "lv", "lvt", "prepend", "pp",
  "regionalindicator", "ri", "spacingmark", "sm", "t", "v", "zwj"]

/-- Roles at the breaks between words. -/
def wordBreaks : List String := [
  "aletter", "le", "cr", "doublequote", "dq", "extend", "extendnumlet", "ex", "format", "fo",
  "hebrewletter", "hl", "katakana", "ka", "lf", "midletter", "ml", "midnum", "mn", "midnumlet",
  "mb", "newline", "nl", "numeric", "nu", "regionalindicator", "ri", "singlequote", "sq",
  "wsegspace", "zwj"]

/-- Roles at the breaks between sentences. -/
def sentenceBreaks : List String := [
  "aterm", "at", "close", "cl", "cr", "extend", "ex", "format", "fo", "oletter", "le", "lf",
  "lower", "lo", "numeric", "nu", "scontinue", "sc", "sep", "se", "sp", "sterm", "st", "upper",
  "up"]

/-- The form in which names are compared. Only the abbreviation `isc` keeps its "is". -/
def looseName (name : List Char) : String :=
  let lower := fun (cs : List Char) =>
    (cs.filter fun c => c.toNat < 128 && c ≠ ' ' && c ≠ '_' && c ≠ '-').map Char.toLower
  match name.map Char.toLower with
  | 'i' :: 's' :: rest =>
    let rest := lower rest
    if rest = ['c'] then "isc" else String.ofList rest
  | _ => String.ofList (lower name)

/-- A name that stands alone. -/
def isPropertyName (name : List Char) : Bool :=
  let name := looseName name
  yesNoProperties.contains name || generalCategories.contains name || scripts.contains name

/-- The values that a property with values can have. -/
def propertyValues (property : List Char) : List String :=
  match looseName property with
  | "gc" => generalCategories
  | "generalcategory" => generalCategories
  | "sc" => scripts
  | "script" => scripts
  | "scx" => scripts
  | "scriptextensions" => scripts
  | "age" => ages
  | "gcb" => clusterBreaks
  | "graphemeclusterbreak" => clusterBreaks
  | "wb" => wordBreaks
  | "wordbreak" => wordBreaks
  | "sb" => sentenceBreaks
  | "sentencebreak" => sentenceBreaks
  | _ => []

def isPropertyValue (property value : List Char) : Bool :=
  (propertyValues property).contains (looseName value)

/-- A name in braces: a property, or a property and its value behind `!=`, `:` or `=`. -/
def isProperty (name : List Char) : Bool :=
  match (splitAt? ['!', '='] name).or ((splitAt? [':'] name).or (splitAt? ['='] name)) with
  | some (property, value) => isPropertyValue property value
  | none => isPropertyName name

end SchemaModel.Pattern
