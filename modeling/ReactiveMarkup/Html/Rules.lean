/-
The rules of reading HTML, mode by mode.

A rule takes the token at hand and answers whether it is dealt with, or has to be
looked at again under the mode that the rule has set. Rules that hand a token to
another mode without setting it come after those of that mode.
-/
import ReactiveMarkup.Html.Builder

namespace ReactiveMarkup.Html

open Text

inductive Verdict where
  | done
  | again

def done (action : Build Unit := pure ()) : Build Verdict := do action; return .done

def again (mode : Mode) : Build Verdict := do setMode mode; return .again

/-- A token is looked at again if an action has ended something. -/
def againIf (action : Build Bool) : Build Verdict := do return if ← action then .again else .done

def enter (mode : Mode) (tag : Tag) : Build Verdict := do openTag tag; done (setMode mode)

def Tag.value? (tag : Tag) (name : String) : Option String := tag.attributes.lookup name

def Tag.isHidden (tag : Tag) : Bool := (tag.value? "type").any (lowered · == "hidden")

def openRoot (tag : Tag) : Build Unit := do
  let i ← newElement .html tag
  modify fun b => { b with store := b.store.append 0 i, opened := [i] }

/-- An `html` tag where one is open already: its attributes are added. -/
def mergeRoot (tag : Tag) : Build Verdict := done <| modify fun b =>
  match b.isOpen ["template"], b.opened.getLast? with
  | false, some root => { b with store := b.store.addAttributes root tag.attributes }
  | _, _ => b

/-! ### Before the body -/

def initial : Token → Build Verdict
  | .characters true _ => done
  | .comment text => done (addCommentTo 0 text)
  | .documentType standard =>
    done (modify fun b => { b with standard, mode := .beforeHtml })
  | _ => again .beforeHtml

/-- Whether a token stands for tags that are missing before it. -/
def Token.impliesMissing : Token → Bool
  | .endTag name => ["head", "body", "html", "br"].contains name
  | _ => true

def beforeHtml (token : Token) : Build Verdict := do
  match token with
  | .characters true _ | .documentType _ => done
  | .comment text => done (addCommentTo 0 text)
  | .startTag tag =>
    if tag.name == "html" then openRoot tag; done (setMode .beforeHead)
    else openRoot { name := "html" }; again .beforeHead
  | _ => if token.impliesMissing then openRoot { name := "html" }; again .beforeHead else done

def openHead (tag : Tag) : Build Unit := do
  let i ← openElement .html tag
  modify fun b => { b with head := some i, mode := .inHead }

def beforeHead (token : Token) : Build Verdict := do
  let goOn := do openHead { name := "head" }; again .inHead
  match token with
  | .characters true _ | .documentType _ => done
  | .comment text => done (addComment text)
  | .startTag tag =>
    match tag.name with
    | "html" => mergeRoot tag
    | "head" => done (openHead tag)
    | _ => goOn
  | _ => if token.impliesMissing then goOn else done

def leaveTemplate : Build Unit := do
  popThrough ["template"]
  clearFormats
  modify fun b => { b with templateModes := b.templateModes.drop 1 }
  resetMode

def endTemplate : Build Verdict := do
  if (← get).isOpen ["template"] then popWhile thoroughEnds; leaveTemplate
  done

def inHead (token : Token) : Build Verdict := do
  let goOn := do pop; again .afterHead
  match token with
  | .characters true text => done (addText text)
  | .documentType _ => done
  | .comment text => done (addComment text)
  | .startTag tag =>
    match tag.name with
    | "html" => mergeRoot tag
    | "base" | "basefont" | "bgsound" | "link" | "meta" => done (addTag tag)
    | "title" => done (openText tag (.escapable "title"))
    | "noframes" | "style" | "noscript" => done (openText tag (.raw tag.name))
    | "script" => done (openText tag .script)
    | "template" =>
      openTag tag
      markFormats
      done <| modify fun b => { b with
        framesetOk := false
        mode := .inTemplate
        templateModes := .inTemplate :: b.templateModes }
    | "head" => done
    | _ => goOn
  | .endTag "head" => pop; done (setMode .afterHead)
  | .endTag "template" => endTemplate
  | _ => if token.impliesMissing then goOn else done

def afterHead (token : Token) : Build Verdict := do
  let goOn := do openNamed "body"; again .inBody
  match token with
  | .characters true text => done (addText text)
  | .documentType _ => done
  | .comment text => done (addComment text)
  | .startTag tag =>
    match tag.name with
    | "html" => mergeRoot tag
    | "body" => noFrameset; enter .inBody tag
    | "frameset" => enter .inFrameset tag
    | "head" => done
    | name =>
      if !headTags.contains name then return ← goOn
      let head := (← get).head
      modify fun b => { b with opened := head.toList ++ b.opened }
      let verdict ← inHead token
      head.forM removeOpened
      return verdict
  | .endTag "template" => endTemplate
  | .endTag "head" => done
  | _ => if token.impliesMissing then goOn else done

/-! ### The body -/

def finishTemplate : Build Verdict :=
  againIf do
    let isOpen := (← get).isOpen ["template"]
    if isOpen then leaveTemplate
    return isOpen

def Builder.body? (b : Builder) : Option Nat :=
  (b.opened.reverse[1]?).filter (b.isOneOf ["body"])

def openItem (tag : Tag) : Build Unit := do
  noFrameset
  let b ← get
  let names := if tag.name == "li" then ["li"] else ["dd", "dt"]
  let limit := special.filter fun n => !(["address", "div", "p"].contains n)
  match (b.opened.find? fun i => b.isOneOf names i || b.isOneOf limit i).bind b.name? with
  | some (.html, name) => if names.contains name then close name
  | _ => pure ()
  closeParagraph
  openTag tag

def Tag.spelledIn (tag : Tag) (vocabulary : Vocabulary) : Tag :=
  { tag with attributes := tag.attributes.map fun (k, v) => (spelled vocabulary k, v) }

def openForeign (vocabulary : Vocabulary) (tag : Tag) : Build Unit := do
  discard (openElement vocabulary (tag.spelledIn vocabulary))
  if tag.selfClosing then pop

def openInBody (tag : Tag) : Build Unit := do
  let name := tag.name
  let b ← get
  match name with
  | "body" =>
    match b.body? with
    | some body =>
      if b.opened.length != 1 && !b.isOpen ["template"] then
        set { b with framesetOk := false, store := b.store.addAttributes body tag.attributes }
    | none => pure ()
  | "frameset" =>
    match b.body? with
    | some body =>
      if b.framesetOk then
        set { b with store := b.store.detach body, opened := b.opened.getLast?.toList }
        openTag tag
        setMode .inFrameset
    | none => pure ()
  | "pre" | "listing" =>
    closeParagraph
    openTag tag
    modify fun b => { b with dropLine := true, framesetOk := false }
  | "form" =>
    if b.form.isNone || b.isOpen ["template"] then
      closeParagraph
      let i ← openElement .html tag
      if !(← get).isOpen ["template"] then modify fun b => { b with form := some i }
  | "li" | "dd" | "dt" => openItem tag
  | "plaintext" =>
    closeParagraph
    openTag tag
    modify fun b => { b with content := .plain }
  | "button" =>
    if b.has ["button"] then popImplied; popThrough ["button"]
    reconstruct
    openTag tag
    noFrameset
  | "a" =>
    match b.scope.find? fun (i, _) => b.isOneOf ["a"] i with
    | some (i, _) => adopt "a"; removeFormat i; removeOpened i
    | none => pure ()
    reconstruct
    openFormat tag
  | "nobr" =>
    reconstruct
    if (← get).has ["nobr"] then adopt "nobr"; reconstruct
    openFormat tag
  | "applet" | "marquee" | "object" =>
    reconstruct
    openTag tag
    markFormats
    noFrameset
  | "table" =>
    if b.standard then closeParagraph
    openTag tag
    noFrameset
    setMode .inTable
  | "area" | "br" | "embed" | "img" | "image" | "keygen" | "wbr" | "input" =>
    reconstruct
    addTag { tag with name := if name == "image" then "img" else name }
    if !(name == "input" && tag.isHidden) then noFrameset
  | "param" | "source" | "track" => addTag tag
  | "hr" => closeParagraph; addTag tag; noFrameset
  | "textarea" =>
    modify fun b => { b with dropLine := true, framesetOk := false }
    openText tag (.escapable name)
  | "xmp" => closeParagraph; reconstruct; noFrameset; openText tag (.raw name)
  | "iframe" => noFrameset; openText tag (.raw name)
  | "noembed" | "noscript" => openText tag (.raw name)
  | "select" =>
    reconstruct
    openTag tag
    noFrameset
    modify fun b => { b with
      mode := if [.inTable, .inCaption, .inTableBody, .inRow, .inCell].contains b.mode
        then .inSelectInTable else .inSelect }
  | "optgroup" | "option" =>
    if b.inside ["option"] then pop
    reconstruct
    openTag tag
  | "rb" | "rtc" =>
    if b.has ["ruby"] then popImplied
    openTag tag
  | "rp" | "rt" =>
    if b.has ["ruby"] then popImplied "rtc"
    openTag tag
  | "math" => reconstruct; openForeign .formula tag
  | "svg" => reconstruct; openForeign .drawing tag
  | "frame" | "head" => pure ()
  | _ =>
    if blocks.contains name then closeParagraph; openTag tag
    else if headings.contains name then
      closeParagraph
      if (← get).inside headings then pop
      openTag tag
    else if formatting.contains name then reconstruct; openFormat tag
    else if !tableParts.contains name then reconstruct; openTag tag

def startInBody (tag : Tag) : Build Verdict :=
  if tag.name == "html" then mergeRoot tag
  else if headTags.contains tag.name then inHead (.startTag tag)
  else done (openInBody tag)

def endAny (names : List String) : Build Unit := do
  if (← get).has names then popImplied; popThrough names

def closeInBody (name : String) : Build Unit := do
  let b ← get
  match name with
  | "body" => if b.has ["body"] then setMode .afterBody
  | "form" =>
    if b.isOpen ["template"] then endAny ["form"]
    else
      set { b with form := none }
      match b.form with
      | some i => if b.reaches (· == i) then popImplied; removeOpened i
      | none => pure ()
  | "p" =>
    if !b.has ["p"] ["button"] then openNamed "p"
    close "p"
  | "li" => if b.has ["li"] ["ol", "ul"] then close name
  | "dd" | "dt" => if b.has [name] then close name
  | "applet" | "marquee" | "object" => if b.has [name] then endAny [name]; clearFormats
  | "a" | "nobr" => adopt name
  | "br" => openInBody { name }
  | _ =>
    if blockEnds.contains name then endAny [name]
    else if headings.contains name then endAny headings
    else if formatting.contains name then adopt name
    else endOther name

def endInBody : String → Build Verdict
  | "template" => endTemplate
  | "html" => do if (← get).has ["body"] then again .afterBody else done
  | name => done (closeInBody name)

def inBody : Token → Build Verdict
  | .null | .documentType _ => done
  | .characters space text => do
    reconstruct
    if !space then noFrameset
    done (addText text)
  | .comment text => done (addComment text)
  | .startTag tag => startInBody tag
  | .endTag name => endInBody name
  | .finish => do if (← get).templateModes.isEmpty then done else finishTemplate

def inText : Token → Build Verdict
  | .characters _ text => done (addText text)
  | .endTag _ => do pop; setMode (← get).back; done (modify fun b => { b with content := .markup })
  | .finish => do pop; again (← get).back
  | _ => done

/-! ### Tables -/

/-- Ends the element with one of some names in a table, if any, and goes on in a mode. -/
def endInTable (names : List String) (finish : Build Unit) : Build Bool := do
  let found := (← get).hasInTable names
  if found then finish
  return found

def endTable : Build Bool := endInTable ["table"] do popThrough ["table"]; resetMode

def foster (token : Token) : Build Verdict := do
  modify fun b => { b with fostering := true }
  let verdict ← inBody token
  modify fun b => { b with fostering := false }
  return verdict

/-- Characters in a table wait until all of them are known. -/
def charactersInTable (token : Token) : Build Verdict := do
  let b ← get
  if b.inside tableFrames then
    set { b with back := b.mode }
    again .inTableText
  else foster token

def startInTable (tag : Tag) : Build Verdict := do
  match tag.name with
  | "caption" => popTo tableLimits; markFormats; enter .inCaption tag
  | "colgroup" => popTo tableLimits; enter .inColumnGroup tag
  | "col" => popTo tableLimits; openNamed "colgroup"; again .inColumnGroup
  | "tbody" | "tfoot" | "thead" => popTo tableLimits; enter .inTableBody tag
  | "td" | "th" | "tr" => popTo tableLimits; openNamed "tbody"; again .inTableBody
  | "table" => againIf endTable
  | "style" | "script" | "template" => inHead (.startTag tag)
  | "form" =>
    let b ← get
    if !b.isOpen ["template"] && b.form.isNone then
      let i ← openElement .html tag
      pop
      modify fun b => { b with form := some i }
    done
  | name => if name == "input" && tag.isHidden then done (addTag tag) else foster (.startTag tag)

def inTable (token : Token) : Build Verdict :=
  match token with
  | .null | .characters .. => charactersInTable token
  | .documentType _ => done
  | .comment text => done (addComment text)
  | .startTag tag => startInTable tag
  | .endTag "table" => done (discard endTable)
  | .endTag "template" => endTemplate
  | .endTag name => if (["body", "html"] ++ tableParts).contains name then done else foster token
  | .finish => inBody token

/-- Places the text of a table: in it if all is space, and otherwise before it. -/
def placeTableText (outside : Bool) : List (Bool × List Char) → Build Unit
  | [] => return ()
  | (space, text) :: rest => do
    if outside then discard (foster (.characters space text)) else addText text
    placeTableText outside rest

def inTableText : Token → Build Verdict
  | .null | .documentType _ => done
  | .characters space text =>
    done (modify fun b => { b with tableText := (space, text) :: b.tableText })
  | _ => do
    let b ← get
    set { b with tableText := [] }
    placeTableText (b.tableText.any fun (space, _) => !space) b.tableText.reverse
    again b.back

def inCaption (token : Token) : Build Verdict := do
  let ends := endInTable ["caption"] do
    popImplied
    popThrough ["caption"]
    clearFormats
    setMode .inTable
  match token with
  | .startTag tag => if tableParts.contains tag.name then againIf ends else inBody token
  | .endTag "table" => againIf ends
  | .endTag "caption" => done (discard ends)
  | .endTag name => if (["body", "html"] ++ tableParts).contains name then done else inBody token
  | _ => inBody token

def inColumnGroup (token : Token) : Build Verdict := do
  let ends : Build Bool := do
    let inside := (← get).inside ["colgroup"]
    if inside then pop; setMode .inTable
    return inside
  match token with
  | .characters true text => done (addText text)
  | .documentType _ => done
  | .comment text => done (addComment text)
  | .startTag tag =>
    match tag.name with
    | "html" => mergeRoot tag
    | "col" => done (addTag tag)
    | "template" => inHead token
    | _ => againIf ends
  | .endTag "colgroup" => done (discard ends)
  | .endTag "col" => done
  | .endTag "template" => endTemplate
  | .finish => inBody token
  | _ => againIf ends

def bodyContext : List String := ["tbody", "tfoot", "thead", "template", "html"]

def rowContext : List String := ["tr", "template", "html"]

def inTableBody (token : Token) : Build Verdict := do
  let ends (names : List String) := endInTable names do
    popTo bodyContext
    pop
    setMode .inTable
  match token with
  | .startTag tag =>
    match tag.name with
    | "tr" => popTo bodyContext; enter .inRow tag
    | "td" | "th" => popTo bodyContext; openNamed "tr"; again .inRow
    | "caption" | "col" | "colgroup" | "tbody" | "tfoot" | "thead" =>
      againIf (ends ["table", "tbody", "tfoot"])
    | _ => inTable token
  | .endTag name =>
    match name with
    | "tbody" | "tfoot" | "thead" => done (discard (ends [name]))
    | "table" => againIf (ends ["table", "tbody", "tfoot"])
    | "body" | "caption" | "col" | "colgroup" | "html" | "td" | "th" | "tr" => done
    | _ => inTable token
  | _ => inTable token

def inRow (token : Token) : Build Verdict := do
  let ends := endInTable ["tr"] do
    popTo rowContext
    pop
    setMode .inTableBody
  match token with
  | .startTag tag =>
    match tag.name with
    | "td" | "th" =>
      popTo rowContext
      openTag tag
      setMode .inCell
      done markFormats
    | "caption" | "col" | "colgroup" | "tr" | "tbody" | "tfoot" | "thead" => againIf ends
    | _ => inTable token
  | .endTag name =>
    match name with
    | "tr" => done (discard ends)
    | "table" => againIf ends
    | "tbody" | "tfoot" | "thead" => if (← get).hasInTable [name] then againIf ends else done
    | "body" | "caption" | "col" | "colgroup" | "html" | "td" | "th" => done
    | _ => inTable token
  | _ => inTable token

def inCell (token : Token) : Build Verdict := do
  let ends (names : List String) : Build Unit := do
    popImplied
    popThrough names
    clearFormats
    setMode .inRow
  match token with
  | .startTag tag =>
    if tableParts.contains tag.name then
      againIf (endInTable ["td", "th"] (ends ["td", "th"]))
    else inBody token
  | .endTag name =>
    match name with
    | "td" | "th" => done (discard (endInTable [name] (ends [name])))
    | "body" | "caption" | "col" | "colgroup" | "html" => done
    | _ =>
      if tableFrames.contains name then againIf (endInTable [name] (ends ["td", "th"]))
      else inBody token
  | _ => inBody token

/-! ### Choices and templates -/

def leaveSelect : Build Unit := do popThrough ["select"]; resetMode

def inSelect (token : Token) : Build Verdict := do
  let ends : Build Bool := do
    let found := (← get).hasSelect
    if found then leaveSelect
    return found
  let popIf (name : String) : Build Unit := do if (← get).inside [name] then pop
  match token with
  | .null | .documentType _ => done
  | .characters _ text => done (addText text)
  | .comment text => done (addComment text)
  | .startTag tag =>
    match tag.name with
    | "html" => mergeRoot tag
    | "option" => popIf "option"; done (openTag tag)
    | "optgroup" => popIf "option"; popIf "optgroup"; done (openTag tag)
    | "hr" => popIf "option"; popIf "optgroup"; done (addTag tag)
    | "select" => done (discard ends)
    | "input" | "keygen" | "textarea" => againIf ends
    | "script" | "template" => inHead token
    | _ => done
  | .endTag name =>
    match name with
    | "optgroup" =>
      let b ← get
      if b.inside ["option"] && (b.opened[1]?).any (b.isOneOf ["optgroup"]) then pop
      done (popIf "optgroup")
    | "option" => done (popIf "option")
    | "select" => done (discard ends)
    | "template" => endTemplate
    | _ => done
  | .finish => inBody token

def selectEnders : List String := "caption" :: "td" :: "th" :: tableFrames

def inSelectInTable (token : Token) : Build Verdict := do
  match token with
  | .startTag tag =>
    if selectEnders.contains tag.name then leaveSelect; return .again else inSelect token
  | .endTag name =>
    if selectEnders.contains name then againIf (endInTable [name] leaveSelect)
    else inSelect token
  | _ => inSelect token

def inTemplate (token : Token) : Build Verdict := do
  let become (mode : Mode) : Build Verdict := do
    modify fun b => { b with templateModes := mode :: b.templateModes.drop 1 }
    again mode
  match token with
  | .characters .. | .comment _ | .null => inBody token
  | .documentType _ => done
  | .startTag tag =>
    match tag.name with
    | "caption" | "colgroup" | "tbody" | "tfoot" | "thead" => become .inTable
    | "col" => become .inColumnGroup
    | "tr" => become .inTableBody
    | "td" | "th" => become .inRow
    | name => if headTags.contains name then inHead token else become .inBody
  | .endTag "template" => endTemplate
  | .endTag _ => done
  | .finish => finishTemplate

/-! ### After the body, and framesets -/

def afterBody (token : Token) : Build Verdict := do
  match token with
  | .characters true _ => inBody token
  | .documentType _ | .finish => done
  | .comment text => done (addCommentTo ((← get).opened.getLast?.getD 0) text)
  | .startTag tag => if tag.name == "html" then mergeRoot tag else again .inBody
  | .endTag "html" => done (setMode .afterAfterBody)
  | _ => again .inBody

def inFrameset (token : Token) : Build Verdict := do
  match token with
  | .characters true text => done (addText text)
  | .comment text => done (addComment text)
  | .startTag tag =>
    match tag.name with
    | "html" => mergeRoot tag
    | "frameset" => done (openTag tag)
    | "frame" => done (addTag tag)
    | "noframes" => inHead token
    | _ => done
  | .endTag "frameset" =>
    if (← get).opened.length != 1 then
      pop
      if !(← get).inside ["frameset"] then setMode .afterFrameset
    done
  | _ => done

def outsideFrames (token : Token) : Build Verdict :=
  match token with
  | .startTag tag =>
    match tag.name with
    | "html" => mergeRoot tag
    | "noframes" => inHead token
    | _ => done
  | _ => done

def afterFrameset : Token → Build Verdict
  | .characters true text => done (addText text)
  | .comment text => done (addComment text)
  | .endTag "html" => done (setMode .afterAfterFrameset)
  | token => outsideFrames token

def afterAfterBody (token : Token) : Build Verdict :=
  match token with
  | .characters true _ => inBody token
  | .documentType _ | .finish => done
  | .comment text => done (addCommentTo 0 text)
  | .startTag tag => if tag.name == "html" then mergeRoot tag else again .inBody
  | _ => again .inBody

def afterAfterFrameset : Token → Build Verdict
  | .characters true text => inBody (.characters true text)
  | .comment text => done (addCommentTo 0 text)
  | token => outsideFrames token

/-! ### All together -/

def step : Mode → Token → Build Verdict
  | .initial => initial
  | .beforeHtml => beforeHtml
  | .beforeHead => beforeHead
  | .inHead => inHead
  | .afterHead => afterHead
  | .inBody => inBody
  | .inText => inText
  | .inTable => inTable
  | .inTableText => inTableText
  | .inCaption => inCaption
  | .inColumnGroup => inColumnGroup
  | .inTableBody => inTableBody
  | .inRow => inRow
  | .inCell => inCell
  | .inSelect => inSelect
  | .inSelectInTable => inSelectInTable
  | .inTemplate => inTemplate
  | .afterBody => afterBody
  | .inFrameset => inFrameset
  | .afterFrameset => afterFrameset
  | .afterAfterBody => afterAfterBody
  | .afterAfterFrameset => afterAfterFrameset

def Builder.endsForeign (b : Builder) (i : Nat) : Bool :=
  match b.name? i with
  | some (.html, _) | none => true
  | _ => b.holdsText i

def breakOut (token : Token) : Build Verdict := do
  modify fun b => { b with opened := b.opened.dropWhile fun i => !b.endsForeign i }
  step (← get).mode token

def Tag.isHtmlFont (tag : Tag) : Bool :=
  tag.name == "font" && ["color", "face", "size"].any fun k => (tag.value? k).isSome

/-- How an end tag in a drawing or formula is met: by an open element that it ends, by an HTML
element, whose rules then hold, or not at all. -/
def endForeign (name : String) : Bool → List Nat → Build Verdict
  | _, [] | _, [_] => done
  | isFirst, i :: outer => do
    let b ← get
    match b.name? i with
    | none => done
    | some (vocabulary, found) =>
      if !isFirst && vocabulary = .html then step b.mode (.endTag name)
      else if lowered found == name then done (set { b with opened := outer })
      else endForeign name false outer

def stepForeign (token : Token) : Build Verdict := do
  match token with
  | .null => done (addText [replacement])
  | .characters space text => do
    if !space then noFrameset
    done (addText text)
  | .comment text => done (addComment text)
  | .startTag tag =>
    if breakouts.contains tag.name || tag.isHtmlFont then breakOut token
    else
      let b ← get
      match b.name? b.current with
      | some (vocabulary, _) => done (openForeign vocabulary tag)
      | none => done
  | .endTag "br" | .endTag "p" => breakOut token
  | .endTag name => endForeign name true (← get).opened
  | _ => done

def Builder.holdsHtml (b : Builder) (i : Nat) : Bool :=
  match b.store.cell? i with
  | some { matter := .element .formula "annotation-xml" attributes _, .. } =>
    (attributes.lookup "encoding").any fun v =>
      ["text/html", "application/xhtml+xml"].contains (lowered v)
  | _ => false

def Builder.isForeign (b : Builder) (token : Token) : Bool :=
  match b.name? b.current, token with
  | _, .finish | none, _ | some (.html, _), _ => false
  | some (.formula, name), .startTag tag =>
    !(formulaTexts.contains name && !(["mglyph", "malignmark"].contains tag.name)) &&
      !(name == "annotation-xml" && (tag.name == "svg" || b.holdsHtml b.current))
  | some (.formula, name), .characters .. | some (.formula, name), .null =>
    !formulaTexts.contains name && !b.holdsHtml b.current
  | some (.drawing, name), .startTag _ | some (.drawing, name), .characters ..
  | some (.drawing, name), .null => !drawingTexts.contains name
  | _, _ => true

/-- A token under the rules in force. Looking again ends at the latest when no element is open;
`fuel` bounds how often that is. -/
def process : Nat → Token → Build Unit
  | 0, _ => return ()
  | fuel + 1, token => do
    let b ← get
    let verdict ← if b.isForeign token then stepForeign token else step b.mode token
    match verdict with
    | .done => return ()
    | .again => process fuel token

/-- Takes a token.  A line feed right after some start tags is dropped. -/
def take (token : Token) : Build Unit := do
  let b ← get
  set { b with dropLine := false }
  let fuel := 4 * b.opened.length + 40
  match b.dropLine, token with
  | true, .characters true ('\n' :: text) =>
    if text.isEmpty then return () else process fuel (.characters true text)
  | _, _ => process fuel token

end ReactiveMarkup.Html
