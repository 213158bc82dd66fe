/-
The elements of HTML by the part they play when text is read.

The lists say which elements are implied, which limit a search among the open
elements, and how attributes of drawings and formulas are spelled.
-/
import ReactiveMarkup.Text.Chars

namespace ReactiveMarkup.Html

open Text

inductive Vocabulary where
  | html
  | drawing
  | formula
deriving DecidableEq

/-- Names that are written in lines, with a blank between two. -/
def names (lines : List String) : List String := (tableEntries lines).map String.ofList

/-! ### Elements that end themselves -/

def impliedEnds : List String := names ["dd dt li option optgroup p rb rp rt rtc"]

def thoroughEnds : List String :=
  impliedEnds ++ names ["caption colgroup tbody td tfoot th thead tr"]

/-! ### Groups of tags -/

def headings : List String := names ["h1 h2 h3 h4 h5 h6"]

def headTags : List String :=
  names ["base basefont bgsound link meta noframes script style template title"]

def plainBlocks : List String := names [
  "address article aside blockquote center details dialog dir div dl fieldset figcaption figure",
  "footer header hgroup main menu nav ol section summary ul"]

def blocks : List String := "p" :: plainBlocks

/-- Elements whose end tag ends whatever stands open inside them. -/
def blockEnds : List String := plainBlocks ++ ["button", "listing", "pre"]

/-- Elements that are opened again after a block ended them. -/
def formatting : List String := names ["b big code em font i s small strike strong tt u"]

def tableParts : List String := names ["caption col colgroup tbody td tfoot th thead tr"]

def tableFrames : List String := names ["table tbody tfoot thead tr"]

def breakouts : List String := names [
  "b big blockquote body br center code dd div dl dt em embed h1 h2 h3 h4 h5 h6 head hr i img li",
  "listing menu meta nobr ol p pre ruby s small span strong strike sub sup table tt u ul var"]

/-! ### Searches among the open elements -/

def limits : List String := names ["applet caption html table td th marquee object template"]

def tableLimits : List String := ["html", "table", "template"]

/-- Elements that an end tag of another element does not reach through. -/
def special : List String :=
  headings ++ headTags ++ plainBlocks.erase "dialog" ++ tableParts ++ limits ++ names [
    "area body br button dd dt embed form frame frameset head hr iframe img input isindex li",
    "listing noembed noscript p param plaintext pre select source textarea track wbr xmp"]

def formulaTexts : List String := names ["mi mo mn ms mtext"]

def drawingTexts : List String := ["foreignobject", "desc", "title"]

/-! ### Spelling of attributes -/

def drawingAttributes : List String := names [
  "attributeName attributeType baseFrequency baseProfile calcMode clipPathUnits diffuseConstant",
  "edgeMode filterUnits glyphRef gradientTransform gradientUnits kernelMatrix kernelUnitLength",
  "keyPoints keySplines keyTimes lengthAdjust limitingConeAngle markerHeight markerUnits",
  "markerWidth maskContentUnits maskUnits numOctaves pathLength patternContentUnits",
  "patternTransform patternUnits pointsAtX pointsAtY pointsAtZ preserveAlpha preserveAspectRatio",
  "primitiveUnits refX refY repeatCount repeatDur requiredExtensions requiredFeatures",
  "specularConstant specularExponent spreadMethod startOffset stdDeviation stitchTiles",
  "surfaceScale systemLanguage tableValues targetX targetY textLength viewBox viewTarget",
  "xChannelSelector yChannelSelector zoomAndPan"]

/-- Attributes that stand for a name of another vocabulary. -/
def foreignAttributes : List String := names [
  "xlink:actuate xlink:arcrole xlink:href xlink:role xlink:show xlink:title xlink:type xml:lang",
  "xml:space xmlns:xlink"]

def withoutVocabulary (name : String) : String :=
  if foreignAttributes.contains name then
    String.ofList ((name.toList.dropWhile (· != ':')).drop 1)
  else name

def spelled (vocabulary : Vocabulary) (name : String) : String :=
  match vocabulary with
  | .html => name
  | .drawing => (drawingAttributes.find? (lowered · == name)).getD (withoutVocabulary name)
  | .formula => if name == "definitionurl" then "definitionURL" else withoutVocabulary name

end ReactiveMarkup.Html
