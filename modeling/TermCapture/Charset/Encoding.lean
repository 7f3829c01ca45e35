import TermCapture.Charset.CodePage

namespace TermCapture

/-- What a charset name stands for. Only the first two can be used to read a byte at a time; the bytes from 0 to 255
are as many characters in the first. -/
inductive Encoding
  | page (page : CodePage)
  | utf8
  | multiByte
  | transform (name : String)
  deriving DecidableEq, Repr

namespace Encoding

/-- The names of an encoding in their canonical spelling. -/
structure Names where
  encoding : Encoding
  proper : List String
  aliases : List String
  deriving Repr

def known : List Names := [
  ⟨.page .ascii, ["ascii"], ["646", "ansi_x3.4_1968", "ansi_x3_4_1968", "ansi_x3.4_1986", "cp367",
    "csascii", "ibm367", "iso646_us", "iso_646.irv_1991", "iso_ir_6", "us", "us_ascii"]⟩,
  ⟨.page .cp437, ["cp437"], ["437", "cspc8codepage437", "ibm437"]⟩,
  ⟨.page .cp850, ["cp850"], ["850", "cspc850multilingual", "ibm850"]⟩,
  ⟨.page .cp866, ["cp866"], ["866", "csibm866", "ibm866"]⟩,
  ⟨.page .cp1252, ["cp1252"], ["1252", "windows_1252"]⟩,
  ⟨.page .koi8r, ["koi8_r"], ["cskoi8r"]⟩,
  ⟨.page .latin1, ["latin_1", "iso8859_1"], ["8859", "cp819", "csisolatin1", "ibm819", "iso8859",
    "iso8859_1", "iso_8859_1", "iso_8859_1_1987", "iso_ir_100", "l1", "latin", "latin1"]⟩,
  ⟨.page .latin9, ["iso8859_15"], ["iso_8859_15", "l9", "latin9"]⟩,
  ⟨.page .utf8Signed, ["utf_8_sig"], []⟩,
  ⟨.utf8, ["utf_8"], ["cp65001", "u8", "utf", "utf8", "utf8_ucs2", "utf8_ucs4"]⟩,
  ⟨.multiByte, ["utf_16", "utf_16_be", "utf_16_le", "utf_32", "utf_32_be", "utf_32_le", "utf_7"],
    ["u16", "utf16", "unicodebigunmarked", "utf_16be", "unicodelittleunmarked", "utf_16le", "u32",
      "utf32", "utf_32be", "utf_32le", "u7", "utf7", "unicode_1_1_utf_7"]⟩,
  ⟨.multiByte, ["big5", "big5hkscs", "cp950", "gb18030", "gb2312", "gbk"],
    ["big5_tw", "csbig5", "x_mac_trad_chinese", "big5_hkscs", "hkscs", "950", "ms950", "gb18030_2000",
      "chinese", "csiso58gb231280", "euc_cn", "euccn", "eucgb2312_cn", "gb2312_1980", "gb2312_80",
      "iso_ir_58", "x_mac_simp_chinese", "936", "cp936", "ms936"]⟩,
  ⟨.multiByte, ["cp932", "euc_jis_2004", "euc_jisx0213", "euc_jp", "shift_jis", "shift_jis_2004",
      "shift_jisx0213"],
    ["932", "ms932", "mskanji", "ms_kanji", "jisx0213", "eucjis2004", "euc_jis2004",
      "eucjisx0213", "eucjp", "ujis", "u_jis", "csshiftjis", "shiftjis", "sjis", "s_jis",
      "x_mac_japanese", "shiftjis2004", "sjis_2004", "s_jis_2004", "shiftjisx0213", "sjisx0213",
      "s_jisx0213"]⟩,
  ⟨.multiByte, ["cp949", "euc_kr", "iso2022_kr", "johab"],
    ["949", "ms949", "uhc", "euckr", "korean", "ksc5601", "ks_c_5601", "ks_c_5601_1987", "ksx1001",
      "ks_x_1001", "x_mac_korean", "csiso2022kr", "iso2022kr", "iso_2022_kr", "cp1361", "ms1361"]⟩,
  ⟨.transform "base64", ["base64_codec"], ["base64", "base_64"]⟩,
  ⟨.transform "bz2", ["bz2_codec"], ["bz2"]⟩,
  ⟨.transform "hex", ["hex_codec"], ["hex"]⟩,
  ⟨.transform "quopri", ["quopri_codec"], ["quopri", "quoted_printable", "quotedprintable"]⟩,
  ⟨.transform "rot-13", ["rot_13"], ["rot13"]⟩,
  ⟨.transform "uu", ["uu_codec"], ["uu"]⟩,
  ⟨.transform "zlib", ["zlib_codec"], ["zip", "zlib"]⟩]

def nameChar (c : Char) : Bool := c.isAlphanum || c = '.'

/-- Lower case, with one underscore for each run of other characters between letters, digits and dots. -/
def canonicalFrom : (gap : Bool) → List Char → List Char
  | _, [] => []
  | gap, c :: cs =>
    if nameChar c then
      if gap then '_' :: c.toLower :: canonicalFrom false cs else c.toLower :: canonicalFrom false cs
    else canonicalFrom true cs

def canonical (name : String) : List Char := canonicalFrom false (name.toList.dropWhile (!nameChar ·))

/-- The encoding that is known by a name. A dot in place of an underscore is understood in aliases, but not in proper
names. -/
def ofName? (name : String) : Option Encoding :=
  let exact := String.ofList (canonical name)
  let undotted := String.ofList ((canonical name).map fun c ↦ if c = '.' then '_' else c)
  (known.find? fun n ↦ n.aliases.contains exact || n.aliases.contains undotted || n.proper.contains exact).map
    (·.encoding)

end Encoding

end TermCapture
