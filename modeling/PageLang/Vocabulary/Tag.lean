import PageLang.Text.Basic

/-!
# Tags

The names that stand for raw tags of the page, where no class has the name, and the tag of elements
that inherit none.
-/

namespace PageLang.Vocabulary

/-- The names of the raw tags. -/
def tags : List Text := List.map Text.ofString [
  "html", "base", "head", "link", "meta", "script", "style", "title", "body", "address",
  "article", "aside", "footer", "header", "h1", "h2", "h3", "h4", "h5", "h6", "hgroup", "main",
  "nav", "section", "blockquote", "cite", "dd", "dt", "dl", "div", "figcaption", "figure", "hr",
  "li", "ol", "p", "pre", "ul", "a", "abbr", "b", "bdi", "bdo", "br", "code", "data", "time",
  "dfn", "em", "i", "kbd", "mark", "q", "rb", "ruby", "rp", "rt", "rtc", "s", "del", "ins",
  "samp", "small", "span", "strong", "sub", "sup", "u", "var", "wbr", "area", "map", "audio",
  "img", "track", "video", "embed", "iframe", "object", "param", "picture", "source", "canvas",
  "noscript", "caption", "col", "colgroup", "table", "tbody", "tr", "td", "tfoot", "th", "thead",
  "button", "datalist", "option", "fieldset", "label", "form", "input", "legend", "meter",
  "optgroup", "select", "output", "progress", "textarea", "details", "dialog", "menu", "summary",
  "slot", "template", "acronym", "applet", "basefont", "bgsound", "big", "blink", "center",
  "command", "content", "dir", "element", "font", "frame", "frameset", "image", "isindex",
  "keygen", "listing", "marquee", "menuitem", "multicol", "nextid", "nobr", "noembed",
  "noframes", "plaintext", "shadow", "spacer", "strike", "tt", "xmp"]

/-- Whether a name is that of a raw tag. -/
def isTag (name : Text) : Bool := tags.contains name

/-- The tag of an element without a tag of its own. -/
def defaultTag : Text := "div"

/-- The tag of the root of a document. -/
def rootTag : Text := "html"

end PageLang.Vocabulary
