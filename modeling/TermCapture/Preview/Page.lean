namespace TermCapture.Preview

/-- The page with the upload form. -/
def page : String := "\n".intercalate [
  "<!DOCTYPE html>",
  "<html lang=\"en\">",
  "  <head>",
  "    <meta charset=\"utf-8\" />",
  "    <meta name=\"viewport\" content=\"width=device-width, initial-scale=1.0\" />",
  "    <title>ANSI preview</title>",
  "    <style>",
  "      :root \x7b",
  "        --bg: #1e1e1e;",
  "        --fg: #e0e0e0;",
  "        --panel-border: #444;",
  "        --accent: #479cff;",
  "      \x7d",
  "      html,",
  "      body \x7b",
  "        margin: 0;",
  "        background: var(--bg);",
  "        color: var(--fg);",
  "        font-family: system-ui, sans-serif;",
  "      \x7d",
  "      form \x7b",
  "        display: flex;",
  "        gap: 0.6rem;",
  "        align-items: center;",
  "        padding: 0.6rem 0.8rem;",
  "        border-bottom: 1px solid var(--panel-border);",
  "      \x7d",
  "      button \x7b",
  "        background: var(--accent);",
  "        color: #fff;",
  "        border: none;",
  "        padding: 0.3rem 0.8rem;",
  "        cursor: pointer;",
  "      \x7d",
  "      #art \x7b",
  "        padding: 1rem;",
  "      \x7d",
  "      #art > div \x7b",
  "        display: inline-block;",
  "        white-space: pre;",
  "        font-family: \"Perfect DOS VGA 437\", \"Courier New\", monospace;",
  "        line-height: 1;",
  "      \x7d",
  "    </style>",
  "  </head>",
  "  <body>",
  "    <form id=\"upload\">",
  "      <input type=\"file\" id=\"file\" />",
  "      <label>Width <input type=\"number\" id=\"width\" value=\"80\" min=\"1\" /></label>",
  "      <label>",
  "        Palette",
  "        <select id=\"palette\">",
  "          <option value=\"cga\">CGA</option>",
  "          <option value=\"xterm\">xterm</option>",
  "        </select>",
  "      </label>",
  "      <label>",
  "        Charset",
  "        <select id=\"charset\">",
  "          <option value=\"cp437\">CP437</option>",
  "          <option value=\"latin-1\">ISO-8859-1</option>",
  "          <option value=\"utf-8\">UTF-8</option>",
  "        </select>",
  "      </label>",
  "      <button type=\"submit\">Render</button>",
  "    </form>",
  "    <main id=\"art\"></main>",
  "    <script>",
  "      document.getElementById(\"upload\").addEventListener(\"submit\", async (ev) => \x7b",
  "        ev.preventDefault();",
  "        const file = document.getElementById(\"file\").files[0];",
  "        if (!file) return;",
  "        const params = new URLSearchParams(\x7b",
  "          width: document.getElementById(\"width\").value,",
  "          palette: document.getElementById(\"palette\").value,",
  "          charset: document.getElementById(\"charset\").value,",
  "        \x7d);",
  "        const res = await fetch(`/render?$\x7bparams\x7d`, \x7b",
  "          method: \"POST\",",
  "          body: await file.arrayBuffer(),",
  "        \x7d);",
  "        const art = document.getElementById(\"art\");",
  "        if (res.ok) \x7b",
  "          art.innerHTML = await res.text();",
  "        \x7d else \x7b",
  "          art.textContent = (await res.json()).detail;",
  "        \x7d",
  "      \x7d);",
  "    </script>",
  "  </body>",
  "</html>"]

end TermCapture.Preview
